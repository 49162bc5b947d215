import LinearKernels.Digest
import LinearKernels.Emit

/-!
Compiled programs, their names and their manifests. The name of a program is fixed by the
keys of its statements and the size of its work group. The manifest is a JSON object with
the name, the keys, the kernels and the source.
-/

namespace LinearKernels

/-- The digits of a digest that stand in names. -/
def nameDigits (digest : List UInt8) : String :=
  String.ofList ((Digest.hex digest).take 16)

/-- The digest of key and work-group size. -/
def programDigest (key : String) (localSize : Nat) : List UInt8 :=
  Digest.ofBytes (utf8 key ++ utf8 "|" ++ Digest.wordBytes localSize.toUInt32)

def programName (stem key : String) (localSize : Nat) : String :=
  stem ++ "_" ++ nameDigits (programDigest key localSize)

structure StatementInfo where
  key : String
  shortKey : String
  span : Span
deriving DecidableEq

structure Program where
  name : String
  /-- The keys of all statements, joined by semicolons. -/
  key : String
  shortKey : String
  source : String
  kernels : List Kernel
  statements : List StatementInfo
deriving DecidableEq

/-! ### Manifest -/

namespace Manifest

def escape (c : Char) : String :=
  match c with
  | '"' => "\\\""
  | '\\' => "\\\\"
  | '\n' => "\\n"
  | '\r' => "\\r"
  | '\t' => "\\t"
  | c => if c.toNat < 0x20 then "\\u" ++ hexadecimal4 c.toNat else String.singleton c

def quote (text : String) : String :=
  "\"" ++ String.join (text.toList.map escape) ++ "\""

def kernel (k : Kernel) : String :=
  "\x7b\"name\": " ++ quote k.name ++ ", \"kind\": \"" ++ k.kind.name ++ "\", \"dimensions\": " ++
    decimal k.dimensions ++ ", \"local_size\": " ++
    (match k.localSize with
      | some n => decimal n
      | none => "null") ++
    ", \"arguments\": [" ++ ", ".intercalate (k.arguments.map quote) ++ "]\x7d"

/-- One kernel a line, with commas between them. -/
def kernels : List Kernel → String
  | [] => ""
  | [k] => "    " ++ kernel k ++ "\n"
  | k :: ks => "    " ++ kernel k ++ ",\n" ++ kernels ks

end Manifest

def Program.manifest (p : Program) : String :=
  "\x7b\n" ++
    "  \"name\": " ++ Manifest.quote p.name ++ ",\n" ++
    "  \"cache_key\": " ++ Manifest.quote p.key ++ ",\n" ++
    "  \"simplified_key\": " ++ Manifest.quote p.shortKey ++ ",\n" ++
    "  \"kernels\": [\n" ++ Manifest.kernels p.kernels ++ "  ],\n" ++
    "  \"source\": " ++ Manifest.quote p.source ++ "\n" ++
    "\x7d\n"

end LinearKernels
