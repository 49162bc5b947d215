import LinearKernels.Proofs.CacheRuns
import Mathlib.Data.Set.Card

/-!
Histories of a cache. Whatever is asked of a cache, one thing after the other, its entries and
its answers can be told from the history alone: a program is there if it was inserted, directly
or by compiling, and since then neither replaced nor dropped with its context. The counters add
up to the number of lookups. A source that does not compile leaves no trace, since nothing can
fail once the cache has been asked.
-/

namespace LinearKernels

namespace Cache

/-! ### Entries -/

section Entries

variable {α : Type}

/-- A filter of the keys. -/
theorem lookup_filter_keys (entries : List ((String × String) × α))
    (keep : String × String → Bool) (key : String × String) :
    (entries.filter (keep ·.1)).lookup key = if keep key then entries.lookup key else none := by
  induction entries with
  | nil => simp
  | cons e entries ih =>
    obtain ⟨k, a⟩ := e
    rw [List.filter_cons, List.lookup_cons]
    by_cases hkey : key = k
    · subst hkey
      split
      · simp
      · next hkeep => rw [ih, if_neg hkeep]
    · have hbeq : (key == k) = false := beq_eq_false_iff_ne.mpr hkey
      rw [hbeq]
      split
      · rw [List.lookup_cons, hbeq, ih]
      · exact ih

theorem find?_insert (c : Cache α) (context name : String) (a : α) (key : String × String) :
    (c.insert context name a).find? key.1 key.2 =
      if key = (context, name) then some a else c.find? key.1 key.2 := by
  change List.lookup key (((context, name), a) :: c.entries.filter (·.1 ≠ (context, name))) = _
  rw [List.lookup_cons]
  by_cases hkey : key = (context, name)
  · rw [beq_iff_eq.mpr hkey, if_pos hkey]
  · rw [beq_eq_false_iff_ne.mpr hkey, if_neg hkey,
      lookup_filter_keys c.entries (decide <| · ≠ (context, name)), if_pos (decide_eq_true hkey)]
    rfl

theorem find?_invalidate (c : Cache α) (context : String) (key : String × String) :
    (c.invalidate context).2.find? key.1 key.2 =
      if key.1 = context then none else c.find? key.1 key.2 := by
  change List.lookup key (c.entries.filter (·.1.1 ≠ context)) = _
  rw [lookup_filter_keys c.entries (decide <| ·.1 ≠ context)]
  by_cases hkey : key.1 = context
  · rw [if_neg (by simpa using hkey), if_pos hkey]
  · rw [if_pos (by simpa using hkey), if_neg hkey]
    rfl

/-- The keys under which there is an entry. -/
def keys (c : Cache α) : List (String × String) :=
  c.entries.map (·.1)

theorem mem_keys_iff {c : Cache α} {key : String × String} :
    key ∈ c.keys ↔ ∃ a, c.find? key.1 key.2 = some a := by
  rw [← Option.isSome_iff_exists, find?, List.lookup_isSome_iff, keys, List.mem_map]
  refine exists_congr fun e => and_congr_right fun _ => ?_
  rw [beq_iff_eq, eq_comm]

theorem nodup_keys_insert {c : Cache α} (h : c.keys.Nodup) (context name : String) (a : α) :
    (c.insert context name a).keys.Nodup := by
  change ((context, name) :: (c.entries.filter (·.1 ≠ (context, name))).map (·.1)).Nodup
  refine List.nodup_cons.mpr ⟨fun hmem => ?_, h.sublist (List.filter_sublist.map _)⟩
  obtain ⟨e, he, heq⟩ := List.mem_map.mp hmem
  exact of_decide_eq_true (List.mem_filter.mp he).2 heq

theorem nodup_keys_invalidate {c : Cache α} (h : c.keys.Nodup) (context : String) :
    (c.invalidate context).2.keys.Nodup :=
  h.sublist (List.filter_sublist.map _)

/-- There are as many keys as entries. -/
theorem encard_keys {entries : List ((String × String) × α)} (h : (entries.map (·.1)).Nodup) :
    {key | key ∈ entries.map (·.1)}.encard = entries.length := by
  rw [← List.coe_toFinset, Set.encard_coe_eq_coe_finsetCard,
    List.toFinset_card_of_nodup h, List.length_map]

/-- The number of programs that are dropped with their context. -/
theorem encard_invalidate {c : Cache α} (h : c.keys.Nodup) (context : String) :
    {key | key.1 = context ∧ key ∈ c.keys}.encard = (c.invalidate context).1 := by
  have hcount : (c.invalidate context).1 = (c.entries.filter (·.1.1 = context)).length := by
    have hsplit := List.length_eq_length_filter_add (l := c.entries) (·.1.1 = context)
    have hkept : (c.entries.filter fun e => !decide (e.1.1 = context)) =
        c.entries.filter (·.1.1 ≠ context) := by
      simp only [ne_eq, decide_not]
    rw [hkept] at hsplit
    change c.entries.length - (c.entries.filter (·.1.1 ≠ context)).length = _
    omega
  rw [hcount, ← encard_keys (h.sublist (List.filter_sublist.map _))]
  congr 1
  ext key
  simp only [keys, Set.mem_ofPred_eq, List.mem_map, List.mem_filter, decide_eq_true_eq]
  constructor
  · rintro ⟨hcontext, e, he, rfl⟩
    exact ⟨e, ⟨he, hcontext⟩, rfl⟩
  · rintro ⟨e, ⟨he, hcontext⟩, rfl⟩
    exact ⟨hcontext, e, he, rfl⟩

end Entries

/-! ### Steps -/

/-- What can be asked of a cache. -/
inductive Step where
  | compile (options : Options) (source : String)
  | insert (context name : String) (program : Program)
  | get (context name : String)
  | contains (context name : String)
  | invalidate (context : String)

inductive Answer where
  | compiled (result : Checked Program)
  | inserted
  | found (program : Option Program)
  | contained (present : Bool)
  | dropped (count : Nat)

def Step.perform : Step → Cache Program → Answer × Cache Program
  | .compile options source, c =>
    (.compiled (compileCached options source c).1, (compileCached options source c).2)
  | .insert context name program, c => (.inserted, c.insert context name program)
  | .get context name, c => (.found (c.get context name).1, (c.get context name).2)
  | .contains context name, c => (.contained (c.contains context name), c)
  | .invalidate context, c => (.dropped (c.invalidate context).1, (c.invalidate context).2)

/-- The steps of a run with their answers. -/
def history (c : Cache Program) : List Step → List (Step × Answer)
  | [] => []
  | step :: steps => (step, (step.perform c).1) :: history (step.perform c).2 steps

/-- The cache at the end of a run. -/
def after (c : Cache Program) : List Step → Cache Program
  | [] => c
  | step :: steps => after (step.perform c).2 steps

/-! ### What a history says -/

/-- A program is inserted directly, or by compiling, under the name of the compiled program. -/
inductive Inserts : Step × Answer → String × String → Program → Prop
  | insert {context name : String} {p : Program} {answer : Answer} :
      Inserts (.insert context name p, answer) (context, name) p
  | compile {options : Options} {source : String} {p q : Program}
      (h : compile options source = .ok q) :
      Inserts (.compile options source, .compiled (.ok p)) (options.context, q.name) p

inductive Drops : Step × Answer → String × String → Prop
  | invalidate {context name : String} {answer : Answer} :
      Drops (.invalidate context, answer) (context, name)

/-- The last insertion under the key is the one of the program, and its context has not been
dropped since. -/
def Live (h : List (Step × Answer)) (key : String × String) (p : Program) : Prop :=
  ∃ before e later, h = before ++ e :: later ∧ Inserts e key p ∧
    ∀ e' ∈ later, ¬ Drops e' key ∧ ∀ p', ¬ Inserts e' key p'

/-- A lookup that is counted: every direct one, and one for each source that compiles. -/
def isLookup : Step × Answer → Bool
  | (.get _ _, _) => true
  | (.compile _ _, .compiled (.ok _)) => true
  | _ => false

variable {h : List (Step × Answer)} {c : Cache Program} {e : Step × Answer}
  {key : String × String} {p : Program}

theorem live_append_iff : Live (h ++ [e]) key p ↔
    Inserts e key p ∨ (¬ Drops e key ∧ ∀ p', ¬ Inserts e key p') ∧ Live h key p := by
  constructor
  · rintro ⟨before, e', later, heq, hinserts, hlater⟩
    rcases List.eq_nil_or_concat' later with rfl | ⟨later, last, rfl⟩
    · obtain ⟨-, hlast⟩ := List.append_inj' heq rfl
      obtain rfl : e = e' := List.singleton_inj.mp hlast
      exact .inl hinserts
    · rw [← List.cons_append, ← List.append_assoc] at heq
      obtain ⟨rfl, hlast⟩ := List.append_inj' heq rfl
      obtain rfl : e = last := List.singleton_inj.mp hlast
      exact .inr ⟨hlater e (by simp), before, e', later, rfl, hinserts,
        fun x hx => hlater x (by simp [hx])⟩
  · rintro (hinserts | ⟨hkeeps, before, e', later, rfl, hinserts, hlater⟩)
    · exact ⟨h, e, [], rfl, hinserts, by simp⟩
    · refine ⟨before, e', later ++ [e], by simp, hinserts, fun x hx => ?_⟩
      rcases List.mem_append.mp hx with hx | hx
      · exact hlater x hx
      · obtain rfl := List.mem_singleton.mp hx
        exact hkeeps

/-- A step that neither inserts nor drops. -/
theorem live_append_iff_of_neutral (hdrops : ∀ key, ¬ Drops e key)
    (hinserts : ∀ key p, ¬ Inserts e key p) :
    Live (h ++ [e]) key p ↔ Live h key p := by
  rw [live_append_iff]
  exact ⟨fun hlive => hlive.elim (fun hi => absurd hi (hinserts key p)) (·.2),
    fun hlive => .inr ⟨⟨hdrops key, hinserts key⟩, hlive⟩⟩

/-- A step that inserts one program. -/
theorem live_append_iff_of_inserts {place : String × String} {q : Program}
    (hdrops : ∀ key, ¬ Drops e key) (hinserts : ∀ key p, Inserts e key p ↔ key = place ∧ q = p) :
    Live (h ++ [e]) key p ↔ if key = place then q = p else Live h key p := by
  rw [live_append_iff]
  simp only [hinserts]
  split
  · next heq => simp [heq]
  · next hne => simp [hne, hdrops]

/-! ### One step -/

/-- The cache is what the history says. -/
structure Tracks (h : List (Step × Answer)) (c : Cache Program) : Prop where
  nodup : c.keys.Nodup
  entries : ∀ key p, c.find? key.1 key.2 = some p ↔ Live h key p
  lookups : c.hits + c.misses = h.countP isLookup

theorem tracks_empty : Tracks [] Cache.empty where
  nodup := List.nodup_nil
  entries := by
    intro key p
    constructor
    · intro hfind
      cases hfind
    · rintro ⟨before, e, later, hnil, -⟩
      simp at hnil
  lookups := rfl

/-- A step that leaves the entries as they are. -/
theorem Tracks.of_neutral {c' : Cache Program} (t : Tracks h c)
    (hentries : c'.entries = c.entries)
    (hdrops : ∀ key, ¬ Drops e key) (hinserts : ∀ key p, ¬ Inserts e key p)
    (hlookups : c'.hits + c'.misses = c.hits + c.misses + if isLookup e then 1 else 0) :
    Tracks (h ++ [e]) c' where
  nodup := by
    rw [keys, hentries]
    exact t.nodup
  entries := by
    intro key p
    rw [live_append_iff_of_neutral hdrops hinserts, ← t.entries, find?, find?, hentries]
  lookups := by rw [hlookups, t.lookups, List.countP_append, List.countP_singleton]

theorem inserts_compile_iff {options : Options} {source : String} {q r : Program}
    (hq : LinearKernels.compile options source = .ok q) :
    Inserts (.compile options source, .compiled (.ok r)) key p ↔
      key = (options.context, q.name) ∧ r = p := by
  constructor
  · intro hinserts
    cases hinserts with
    | compile hq' =>
      obtain rfl := Except.ok.inj (hq.symm.trans hq')
      exact ⟨rfl, rfl⟩
  · rintro ⟨rfl, rfl⟩
    exact .compile hq

theorem Tracks.compile (t : Tracks h c) (options : Options) (source : String) :
    Tracks (h ++ [(.compile options source, ((Step.compile options source).perform c).1)])
      ((Step.compile options source).perform c).2 := by
  cases hcompile : LinearKernels.compile options source with
  | error ds =>
    rw [Step.perform, compileCached_error hcompile]
    exact t.of_neutral rfl (by rintro _ ⟨⟩) (by rintro _ _ ⟨⟩) rfl
  | ok q =>
    cases hfind : c.find? options.context q.name with
    | some r =>
      -- A hit inserts nothing; the history has it insert once more what is there.
      rw [Step.perform, compileCached_hit hcompile hfind]
      refine ⟨t.nodup, fun key p => ?_, ?_⟩
      · rw [live_append_iff_of_inserts (by rintro _ ⟨⟩) fun key p => inserts_compile_iff hcompile,
          ← t.entries]
        change c.find? key.1 key.2 = some p ↔ _
        split
        · next heq => rw [heq, hfind, Option.some.injEq]
        · rfl
      · rw [List.countP_append, ← t.lookups]
        exact Nat.add_right_comm c.hits 1 c.misses
    | none =>
      rw [Step.perform, compileCached_miss hcompile hfind]
      refine ⟨nodup_keys_insert t.nodup .., fun key p => ?_, ?_⟩
      · rw [live_append_iff_of_inserts (by rintro _ ⟨⟩) fun key p => inserts_compile_iff hcompile,
          find?_insert, ← t.entries]
        split
        · exact Option.some_inj
        · rfl
      · rw [List.countP_append, ← t.lookups]
        exact (Nat.add_assoc c.hits c.misses 1).symm

theorem Tracks.perform (t : Tracks h c) (step : Step) :
    Tracks (h ++ [(step, (step.perform c).1)]) (step.perform c).2 := by
  cases step with
  | compile options source => exact t.compile options source
  | insert context name program =>
    refine ⟨nodup_keys_insert t.nodup .., fun key p => ?_, ?_⟩
    · have hinserts : ∀ key p, Inserts (.insert context name program, .inserted) key p ↔
          key = (context, name) ∧ program = p := by
        refine fun key p => ⟨fun hi => ?_, ?_⟩
        · cases hi
          exact ⟨rfl, rfl⟩
        · rintro ⟨rfl, rfl⟩
          exact .insert
      rw [Step.perform, live_append_iff_of_inserts (by rintro _ ⟨⟩) hinserts,
        find?_insert, ← t.entries]
      split
      · exact Option.some_inj
      · rfl
    · rw [List.countP_append, ← t.lookups]
      rfl
  | get context name =>
    refine t.of_neutral ?_ (by rintro _ ⟨⟩) (by rintro _ _ ⟨⟩) ?_
    all_goals
      rw [Step.perform, Cache.get]
      split
    · rfl
    · rfl
    · exact Nat.add_right_comm c.hits 1 c.misses
    · exact (Nat.add_assoc c.hits c.misses 1).symm
  | contains context name => exact t.of_neutral rfl (by rintro _ ⟨⟩) (by rintro _ _ ⟨⟩) rfl
  | invalidate context =>
    refine ⟨nodup_keys_invalidate t.nodup context, fun key p => ?_, ?_⟩
    · have hdrops : ∀ answer key, Drops (.invalidate context, answer) key ↔ key.1 = context := by
        refine fun answer key => ⟨fun hd => ?_, ?_⟩
        · cases hd
          rfl
        · rintro rfl
          exact .invalidate
      have hinserts : ∀ answer p, ¬ Inserts (.invalidate context, answer) key p := by
        rintro _ _ ⟨⟩
      rw [Step.perform, live_append_iff, find?_invalidate, hdrops, ← t.entries]
      simp [hinserts]
    · rw [List.countP_append, ← t.lookups]
      rfl

/-! ### Runs -/

theorem Tracks.run (t : Tracks h c) (steps : List Step) :
    Tracks (h ++ history c steps) (after c steps) := by
  induction steps generalizing h c with
  | nil => simpa [history, after] using t
  | cons step steps ih =>
    have hrun := ih (t.perform step)
    rwa [List.append_assoc, List.singleton_append] at hrun

theorem Tracks.mem_keys_iff_live (t : Tracks h c) : key ∈ c.keys ↔ ∃ p, Live h key p := by
  rw [mem_keys_iff]
  exact exists_congr fun p => t.entries key p

/-- A source that compiles to the given program gets the one that is there already under its
name, or else the one just made. From then on it is there, and the same step again is a hit. -/
def Serves (h : List (Step × Answer)) (c : Cache Program) (options : Options) (source : String)
    (q : Program) : Prop :=
  ∃ p c', (Step.compile options source).perform c = (.compiled (.ok p), c') ∧
    (∀ r, Live h (options.context, q.name) r → p = r) ∧
    ((∀ r, ¬ Live h (options.context, q.name) r) → p = q) ∧
    c'.find? options.context q.name = some p ∧
    (Step.compile options source).perform c' =
      (.compiled (.ok p), { c' with hits := c'.hits + 1 })

theorem Tracks.serves (t : Tracks h c) {options : Options} {source : String} {q : Program}
    (hq : LinearKernels.compile options source = .ok q) : Serves h c options source q := by
  have hentries : ∀ r, c.find? options.context q.name = some r ↔
      Live h (options.context, q.name) r :=
    t.entries (options.context, q.name)
  have hrepeat : ∀ {p : Program} {c' : Cache Program}, c'.find? options.context q.name = some p →
      (Step.compile options source).perform c' =
        (.compiled (.ok p), { c' with hits := c'.hits + 1 }) := by
    intro p c' hfind
    rw [Step.perform, compileCached_hit hq hfind]
  cases hfind : c.find? options.context q.name with
  | some p =>
    refine ⟨p, _, hrepeat hfind, fun r hr => ?_, fun hnone => absurd ((hentries p).mp hfind)
      (hnone p), hfind, hrepeat hfind⟩
    exact Option.some.inj (hfind.symm.trans ((hentries r).mpr hr))
  | none =>
    have hinsert : ({ c with misses := c.misses + 1 }.insert options.context q.name q).find?
        options.context q.name = some q := by
      rw [find?_insert _ _ _ _ (options.context, q.name), if_pos rfl]
    refine ⟨q, _, ?_, fun r hr => ?_, fun _ => rfl, hinsert, hrepeat hinsert⟩
    · rw [Step.perform, compileCached_miss hq hfind]
    · rw [(hentries r).mpr hr] at hfind
      cases hfind

/-- All that can be said of a cache after the steps of a history, and of the next step. -/
structure Follows (h : List (Step × Answer)) (c : Cache Program) : Prop where
  entries : ∀ key p, c.find? key.1 key.2 = some p ↔ Live h key p
  size : {key | ∃ p, Live h key p}.encard = c.size
  lookups : c.hits + c.misses = h.countP isLookup
  get : ∀ context name, ∃ found, ((Step.get context name).perform c).1 = .found found ∧
    ∀ p, found = some p ↔ Live h (context, name) p
  contains : ∀ context name, ∃ present, ((Step.contains context name).perform c).1 =
    .contained present ∧ (present = true ↔ ∃ p, Live h (context, name) p)
  invalidate : ∀ context, ∃ count c', (Step.invalidate context).perform c = (.dropped count, c') ∧
    {key : String × String | key.1 = context ∧ ∃ p, Live h key p}.encard = count ∧
    ∀ key : String × String,
      c'.find? key.1 key.2 = if key.1 = context then none else c.find? key.1 key.2
  failed : ∀ options source ds, LinearKernels.compile options source = .error ds →
    (Step.compile options source).perform c = (.compiled (.error ds), c)
  compiled : ∀ options source q, LinearKernels.compile options source = .ok q →
    Serves h c options source q

/-- After any steps from an empty cache, its entries, its size, its counters and its next answer
are what the history says. -/
theorem follows_history (steps : List Step) :
    Follows (history Cache.empty steps) (after Cache.empty steps) := by
  have t := tracks_empty.run steps
  rw [List.nil_append] at t
  refine ⟨t.entries, ?_, t.lookups, fun context name => ?_, fun context name => ?_,
    fun context => ?_, ?_, ?_⟩
  · simp only [← t.mem_keys_iff_live]
    exact encard_keys t.nodup
  · refine ⟨_, rfl, fun p => ?_⟩
    rw [← t.entries (context, name), Cache.get]
    split
    · next hfind => rw [hfind]
    · next hfind => rw [hfind]
  · refine ⟨_, rfl, ?_⟩
    rw [Cache.contains, Option.isSome_iff_exists]
    exact exists_congr fun p => t.entries (context, name) p
  · refine ⟨_, _, rfl, ?_, fun key => find?_invalidate _ context key⟩
    simp only [← t.mem_keys_iff_live]
    exact encard_invalidate t.nodup context
  · intro options source ds hcompile
    rw [Step.perform, compileCached_error hcompile]
  · intro options source q hq
    exact t.serves hq

end Cache

end LinearKernels
