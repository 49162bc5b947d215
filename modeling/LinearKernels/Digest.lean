import LinearKernels.Scan

/-!
The BLAKE3 digest. A message is cut into chunks of 1024 bytes and a chunk into blocks of 64.
The blocks of a chunk are compressed one after the other; the chunks are the leaves of a
binary tree in which neighbours are joined level by level, a last odd node going up as it
is. The digest is the compression of the root.
-/

namespace LinearKernels.Digest

abbrev Chain := Vector UInt32 8

abbrev Block := Vector UInt32 16

def initial : Chain :=
  #v[0x6A09E667, 0xBB67AE85, 0x3C6EF372, 0xA54FF53A, 0x510E527F, 0x9B05688C,
    0x1F83D9AB, 0x5BE0CD19]

/-- Where the words of a block are taken from in the next round. -/
def permutation : Vector (Fin 16) 16 :=
  #v[2, 6, 3, 10, 7, 0, 4, 13, 1, 11, 12, 5, 9, 14, 15, 8]

/-! Flags of a compression. -/

def chunkStart : UInt32 := 1

def chunkEnd : UInt32 := 2

def parentFlag : UInt32 := 4

def rootFlag : UInt32 := 8

def rotateRight (word count : UInt32) : UInt32 :=
  (word >>> count) ||| (word <<< (32 - count))

/-- Mix two words into four words of the state. -/
def mix (s : Block) (a b c d : Fin 16) (x y : UInt32) : Block :=
  let va := s[a] + s[b] + x
  let vd := rotateRight (s[d] ^^^ va) 16
  let vc := s[c] + vd
  let vb := rotateRight (s[b] ^^^ vc) 12
  let va := va + vb + y
  let vd := rotateRight (vd ^^^ va) 8
  let vc := vc + vd
  let vb := rotateRight (vb ^^^ vc) 7
  (((s.set a va).set b vb).set c vc).set d vd

/-- Mix the columns, then the diagonals. -/
def round (s m : Block) : Block :=
  let s := mix s 0 4 8 12 m[0] m[1]
  let s := mix s 1 5 9 13 m[2] m[3]
  let s := mix s 2 6 10 14 m[4] m[5]
  let s := mix s 3 7 11 15 m[6] m[7]
  let s := mix s 0 5 10 15 m[8] m[9]
  let s := mix s 1 6 11 12 m[10] m[11]
  let s := mix s 2 7 8 13 m[12] m[13]
  mix s 3 4 9 14 m[14] m[15]

def permute (m : Block) : Block :=
  permutation.map fun i => m[i]

def rounds : Nat → Block → Block → Block
  | 0, s, _ => s
  | n + 1, s, m => rounds n (round s m) (permute m)

/-- A compression that has not been run: an inner block of the tree. -/
structure Node where
  chain : Chain
  block : Block
  counter : Nat
  length : Nat
  flags : UInt32

def Node.compress (node : Node) (flags : UInt32) : Chain :=
  let cv := node.chain
  let start : Block :=
    #v[cv[0], cv[1], cv[2], cv[3], cv[4], cv[5], cv[6], cv[7],
      initial[0], initial[1], initial[2], initial[3],
      node.counter.toUInt32, (node.counter >>> 32).toUInt32, node.length.toUInt32,
      node.flags ||| flags]
  let s := rounds 7 start node.block
  #v[s[0] ^^^ s[8], s[1] ^^^ s[9], s[2] ^^^ s[10], s[3] ^^^ s[11],
    s[4] ^^^ s[12], s[5] ^^^ s[13], s[6] ^^^ s[14], s[7] ^^^ s[15]]

/-- Four bytes as a word, the lowest first. -/
def word (b0 b1 b2 b3 : UInt8) : UInt32 :=
  b0.toUInt32 ||| (b1.toUInt32 <<< 8) ||| (b2.toUInt32 <<< 16) ||| (b3.toUInt32 <<< 24)

/-- At most 64 bytes as a block, filled up with zeros. -/
def blockOf (bytes : List UInt8) : Block :=
  let bytes := bytes.toArray
  Vector.ofFn fun i =>
    word (bytes.getD (4 * i) 0) (bytes.getD (4 * i + 1) 0) (bytes.getD (4 * i + 2) 0)
      (bytes.getD (4 * i + 3) 0)

/-- The node of a chunk whose blocks before `bytes` gave `chain`. The first block carries
`flags`. -/
def chunkNode (counter : Nat) (flags : UInt32) (chain : Chain) (bytes : List UInt8) : Node :=
  if bytes.length ≤ 64 then ⟨chain, blockOf bytes, counter, bytes.length, flags ||| chunkEnd⟩
  else
    let first : Node := ⟨chain, blockOf (bytes.take 64), counter, 64, flags⟩
    chunkNode counter 0 (first.compress 0) (bytes.drop 64)
termination_by bytes.length
decreasing_by simp only [List.length_drop]; omega

/-- The chunks from number `counter` on; there is always one. -/
def chunkNodes (counter : Nat) (bytes : List UInt8) : Node × List Node :=
  if bytes.length ≤ 1024 then (chunkNode counter chunkStart initial bytes, [])
  else
    let (next, rest) := chunkNodes (counter + 1) (bytes.drop 1024)
    (chunkNode counter chunkStart initial (bytes.take 1024), next :: rest)
termination_by bytes.length
decreasing_by simp only [List.length_drop]; omega

def parent (left right : Node) : Node :=
  let l := left.compress 0
  let r := right.compress 0
  ⟨initial, (l ++ r).cast rfl, 0, 64, parentFlag⟩

def pairUp : List Node → List Node
  | left :: right :: rest => parent left right :: pairUp rest
  | rest => rest

theorem length_pairUp_le : (nodes : List Node) → (pairUp nodes).length ≤ nodes.length
  | [] => Nat.le_refl _
  | [_] => Nat.le_refl _
  | _ :: _ :: rest => by
    have := length_pairUp_le rest
    simp only [pairUp, List.length_cons]
    omega

def root (first : Node) (rest : List Node) : Node :=
  match rest with
  | [] => first
  | second :: rest => root (parent first second) (pairUp rest)
termination_by rest.length
decreasing_by
  have := length_pairUp_le rest
  simp only [List.length_cons]
  omega

def wordBytes (w : UInt32) : List UInt8 :=
  [w.toUInt8, (w >>> 8).toUInt8, (w >>> 16).toUInt8, (w >>> 24).toUInt8]

/-- The 32 bytes of the digest. -/
def ofBytes (bytes : List UInt8) : List UInt8 :=
  let (first, rest) := chunkNodes 0 bytes
  ((root first rest).compress rootFlag).toList.flatMap wordBytes

def hexByte (b : UInt8) : List Char :=
  [Nat.digitChar (b.toNat / 16), Nat.digitChar (b.toNat % 16)]

def hex (bytes : List UInt8) : List Char :=
  bytes.flatMap hexByte

end LinearKernels.Digest
