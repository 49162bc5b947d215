import LinearKernels.Program
import LinearKernels.Proofs.JsonReading

/-!
Manifests are JSON texts. Each text, number and list of a manifest is written as the grammar
demands, whatever characters are in it, so a reader of JSON gets back one object with all that
the manifest is made from.
-/

namespace LinearKernels

/-! ### What a manifest stands for -/

def Kernel.json (k : Kernel) : Json :=
  .object
    [("name", .string k.name), ("kind", .string k.kind.name), ("dimensions",
      .number k.dimensions 0), ("local_size", k.localSize.elim .null fun n => .number n 0),
      ("arguments", .array (k.arguments.map .string))]

def Program.json (p : Program) : Json :=
  .object
    [("name", .string p.name), ("cache_key", .string p.key),
      ("simplified_key", .string p.shortKey),
      ("kernels", .array (p.kernels.map Kernel.json)), ("source", .string p.source)]

theorem PassKind.name_injective {k k' : PassKind} (h : k.name = k'.name) : k = k' := by
  revert h
  cases k <;> cases k' <;> decide +kernel

theorem Kernel.json_injective {k k' : Kernel} (h : k.json = k'.json) : k = k' := by
  obtain ⟨name, kind, arguments, dimensions, localSize⟩ := k
  obtain ⟨name', kind', arguments', dimensions', localSize'⟩ := k'
  have harguments : ∀ {xs ys : List String}, xs.map Json.string = ys.map Json.string → xs = ys :=
    fun h => (List.map_inj_right fun x y hxy => Json.string.inj hxy).mp h
  have hsize : ∀ {m n : Option Nat}, (m.elim Json.null fun n => .number n 0) =
      (n.elim Json.null fun n => .number n 0) → m = n := by
    intro m n h
    cases m with
    | none => cases n with
      | none => rfl
      | some n => cases h
    | some m => cases n with
      | none => cases h
      | some n => exact congrArg some (Int.natCast_inj.mp (Json.number.inj h).1)
  simp only [json, Json.object.injEq, List.cons.injEq, Prod.mk.injEq, Json.string.injEq,
    Json.number.injEq, Json.array.injEq, true_and, and_true, Int.natCast_inj] at h
  obtain ⟨rfl, hkind, rfl, hlocal, hargs⟩ := h
  obtain rfl := PassKind.name_injective hkind
  obtain rfl := hsize hlocal
  obtain rfl := harguments hargs
  rfl

theorem Program.json_eq_iff {p q : Program} : p.json = q.json ↔ p.name = q.name ∧ p.key = q.key ∧
    p.shortKey = q.shortKey ∧ p.kernels = q.kernels ∧ p.source = q.source := by
  have hkernels : p.kernels.map Kernel.json = q.kernels.map Kernel.json ↔ p.kernels = q.kernels :=
    List.map_inj_right fun x y hxy => Kernel.json_injective hxy
  simp only [json, Json.object.injEq, List.cons.injEq, Prod.mk.injEq, Json.string.injEq,
    Json.array.injEq, hkernels, true_and, and_true]

namespace Manifest

open Json

/-! ### Texts and numbers -/

/-- The digits of a control character. -/
theorem hexadecimal4_of_lt : ∀ n < 32, (hexadecimal4 n).toList = ['0', '0', (n / 16).digitChar,
      (n % 16).digitChar] ∧ codeUnit? '0' '0' (n / 16).digitChar (n % 16).digitChar = some n := by
  simp only [hexadecimal4, String.toList_ofList]
  decide +kernel

theorem letter_escape (c : Char) : Letter c (escape c).toList := by
  unfold escape
  split
  case h_6 hquote hback _ _ _ =>
    split
    · next hlow =>
      obtain ⟨hdigits, hunit⟩ := hexadecimal4_of_lt c.toNat hlow
      rw [String.toList_append, hdigits]
      exact .unit hunit
    · next hlow =>
      rw [String.toList_singleton]
      exact .plain (Nat.le_of_not_lt hlow) hquote hback
  all_goals exact .short rfl

theorem letters_escape (xs : List Char) : Letters xs (String.join (xs.map escape)).toList := by
  induction xs with
  | nil => exact .nil
  | cons x xs ih =>
    rw [List.map_cons, String.join_cons, String.toList_append]
    exact .cons (letter_escape x) ih

theorem written_quote (text : String) : Written (.value (.string text)) (quote text).toList := by
  have hwritten := Written.string (letters_escape text.toList)
  rw [String.ofList_toList] at hwritten
  simpa [quote] using hwritten

/-- A numeral begins with a zero for the number zero only. -/
theorem toDigits_eq_zero (n : Nat) (h : (Nat.toDigits 10 n).head? = some '0') : n = 0 := by
  induction n using Nat.strongRecOn with
  | ind n ih =>
    by_cases hn : n < 10
    · rw [Nat.toDigits_of_lt_base hn] at h
      exact Nat.digitChar_eq_zero.mp (Option.some.inj h)
    · rw [Nat.toDigits_of_base_le (by omega) (Nat.le_of_not_lt hn), List.head?_append,
        List.head?_eq_some_head Nat.toDigits_ne_nil, Option.some_or,
        ← List.head?_eq_some_head] at h
      have := ih (n / 10) (by omega) h
      omega

theorem written_decimal (n : Nat) : Written (.value (.number n 0)) (decimal n).toList := by
  have hdigits : IntegerDigits (decimal n).toList := by
    refine ⟨⟨?_, fun c hc => isDigit_of_mem_decimal hc⟩, fun hhead => ?_⟩
    · rw [decimal, String.toList_ofList]
      exact Nat.toDigits_ne_nil
    · rw [decimal, String.toList_ofList] at hhead ⊢
      rw [toDigits_eq_zero n hhead, Nat.toDigits_zero]
  have hnumber := Unsigned.mk hdigits .none .none
  rw [List.append_nil, List.append_nil, List.append_nil, decimalValue_toList_decimal] at hnumber
  exact .positive hnumber

/-! ### Lists and objects -/

/-- A member with the blanks in front of it and behind it. -/
def field (gap key value tail : String) : String :=
  gap ++ (quote key ++ (": " ++ (value ++ tail)))

theorem written_padded {v : Json} {text : String} (gap tail : String) (hgap : Blanks gap.toList)
    (htail : Blanks tail.toList) (h : Written (.value v) text.toList) :
    Written (.padded v) (gap ++ (text ++ tail)).toList := by
  rw [String.toList_append, String.toList_append]
  exact .padded hgap htail h

theorem memberText_field {v : Json} {value : String} (gap key tail : String)
    (hgap : Blanks gap.toList) (htail : Blanks tail.toList)
    (h : Written (.value v) value.toList) :
    MemberText (key, v) (field gap key value tail).toList := by
  refine ⟨(gap ++ (quote key ++ "")).toList, (" " ++ (value ++ tail)).toList, ?_,
    written_padded gap "" hgap (by simp [Blanks]) (written_quote key),
    written_padded " " tail (by simp [Blanks, isBlank]) htail h⟩
  simp [field]

theorem listed_field {v : Json} {ms : List (String × Json)} {value more : String}
    (gap key : String) (hgap : Blanks gap.toList) (h : Written (.value v) value.toList)
    (hmore : Listed MemberText ms more.toList) :
    Listed MemberText ((key, v) :: ms) (field gap key value "" ++ ("," ++ more)).toList := by
  rw [String.toList_append, String.toList_append]
  exact .cons (memberText_field gap key "" hgap (by simp [Blanks]) h) hmore

theorem written_object {ms : List (String × Json)} {body : String}
    (h : Listed MemberText ms body.toList) :
    Written (.value (.object ms)) ("\x7b" ++ (body ++ "\x7d")).toList := by
  rw [String.toList_append, String.toList_append]
  exact .object h.members

theorem written_array {vs : List Json} {body : String} (h : Written (.items vs) body.toList) :
    Written (.value (.array vs)) ("[" ++ (body ++ "]")).toList := by
  rw [String.toList_append, String.toList_append]
  exact .array h

theorem written_noItems {gap : String} (hgap : Blanks gap.toList) :
    Written (.value (.array [])) ("[" ++ (gap ++ "]")).toList := by
  rw [String.toList_append, String.toList_append]
  exact .noItems hgap

theorem written_item {v : Json} {vs : List Json} {text more : String}
    (h : Written (.padded v) text.toList) (hmore : Written (.items vs) more.toList) :
    Written (.items (v :: vs)) (text ++ ("," ++ more)).toList := by
  rw [String.toList_append, String.toList_append]
  exact .item h hmore

/-- Arguments, each but the first with a blank in front of it. -/
theorem written_arguments (gap argument : String) (arguments : List String)
    (hgap : Blanks gap.toList) :
    Written (.items ((argument :: arguments).map .string))
      (gap ++ ", ".intercalate ((argument :: arguments).map quote)).toList := by
  induction arguments generalizing gap argument with
  | nil =>
    have hargument := written_padded gap "" hgap (by simp [Blanks]) (written_quote argument)
    rw [String.append_empty] at hargument
    exact .lastItem hargument
  | cons next arguments ih =>
    have hargument := written_padded gap "" hgap (by simp [Blanks]) (written_quote argument)
    have hmore := written_item hargument (ih " " next (by simp [Blanks, isBlank]))
    have hcomma : ", " = "," ++ " " := rfl
    simpa only [List.map_cons, String.intercalate_cons_cons, hcomma, String.append_assoc,
      String.append_empty] using hmore

theorem written_argumentList (arguments : List String) :
    Written (.value (.array (arguments.map .string)))
      ("[" ++ (", ".intercalate (arguments.map quote) ++ "]")).toList := by
  cases arguments with
  | nil => exact written_noItems (by simp [Blanks])
  | cons argument arguments =>
    have hitems := written_arguments "" argument arguments (by simp [Blanks])
    rw [String.empty_append] at hitems
    exact written_array hitems

/-! ### Kernels and programs -/

theorem quote_name (k : PassKind) : quote k.name = "\"" ++ (k.name ++ "\"") := by
  cases k <;> decide +kernel

def sizeText (size : Option Nat) : String :=
  size.elim "null" decimal

theorem written_sizeText (size : Option Nat) :
    Written (.value (size.elim .null fun n => .number n 0)) (sizeText size).toList := by
  cases size with
  | none => exact .null
  | some n => exact written_decimal n

theorem kernel_eq (k : Kernel) : kernel k =
    "\x7b" ++ (field "" "name" (quote k.name) "" ++ ("," ++
      (field " " "kind" (quote k.kind.name) "" ++ ("," ++
      (field " " "dimensions" (decimal k.dimensions) "" ++ ("," ++
      (field " " "local_size" (sizeText k.localSize) "" ++ ("," ++
      field " " "arguments" ("[" ++ (", ".intercalate (k.arguments.map quote) ++ "]"))
        ""))))))) ++ "\x7d") := by
  have hname : "\x7b\"name\": " = "\x7b" ++ (quote "name" ++ ": ") := by decide +kernel
  have hkind : ", \"kind\": \"" = "," ++ (" " ++ (quote "kind" ++ (": " ++ "\""))) := by
    decide +kernel
  have hdimensions : "\", \"dimensions\": " =
      "\"" ++ ("," ++ (" " ++ (quote "dimensions" ++ ": "))) := by
    decide +kernel
  have hsize : ", \"local_size\": " = "," ++ (" " ++ (quote "local_size" ++ ": ")) := by
    decide +kernel
  have harguments : ", \"arguments\": [" =
      "," ++ (" " ++ (quote "arguments" ++ (": " ++ "["))) := by decide +kernel
  have hclose : "]\x7d" = "]" ++ "\x7d" := rfl
  obtain ⟨name, kind, arguments, dimensions, _ | size⟩ := k
  all_goals
    unfold kernel sizeText field
    simp only [Option.elim_none, Option.elim_some, hname, hkind, hdimensions, hsize, harguments,
      hclose, quote_name, String.append_assoc, String.append_empty, String.empty_append]

theorem written_kernel (k : Kernel) : Written (.value k.json) (kernel k).toList := by
  have hblank : Blanks " ".toList := by simp [Blanks, isBlank]
  have hnone : Blanks "".toList := by simp [Blanks]
  rw [kernel_eq]
  refine written_object (listed_field "" "name" hnone (written_quote _) ?_)
  refine listed_field " " "kind" hblank (written_quote _) ?_
  refine listed_field " " "dimensions" hblank (written_decimal _) ?_
  refine listed_field " " "local_size" hblank (written_sizeText _) ?_
  exact .last (memberText_field " " "arguments" "" hblank hnone (written_argumentList _))

/-- Kernels, each on a line of its own. -/
theorem written_kernels (k : Kernel) (ks : List Kernel) :
    Written (.items ((k :: ks).map Kernel.json))
      ("\n" ++ (kernels (k :: ks) ++ "  ")).toList := by
  have hindent : "\n    " = "\n" ++ "    " := rfl
  have hblank : Blanks "\n    ".toList := by simp [Blanks, isBlank]
  induction ks generalizing k with
  | nil =>
    have hkernel :=
      written_padded "\n    " "\n  " hblank (by simp [Blanks, isBlank]) (written_kernel k)
    have hlast : "\n  " = "\n" ++ "  " := rfl
    refine .lastItem ?_
    simpa only [kernels, hindent, hlast, String.append_assoc] using hkernel
  | cons next ks ih =>
    have hkernel := written_padded "\n    " "" hblank (by simp [Blanks]) (written_kernel k)
    have hcomma : ",\n" = "," ++ "\n" := rfl
    simpa only [List.map_cons, kernels, hindent, hcomma, String.append_assoc,
      String.append_empty] using written_item hkernel (ih next)

theorem written_kernelList (ks : List Kernel) :
    Written (.value (.array (ks.map Kernel.json)))
      ("[" ++ ("\n" ++ (kernels ks ++ "  ") ++ "]")).toList := by
  cases ks with
  | nil => exact written_noItems (by simp [Blanks, isBlank, kernels])
  | cons k ks => exact written_array (written_kernels k ks)

end Manifest

open Manifest

theorem Program.manifest_eq (p : Program) : p.manifest =
    "\x7b" ++ (field "\n  " "name" (quote p.name) "" ++ ("," ++
      (field "\n  " "cache_key" (quote p.key) "" ++ ("," ++
      (field "\n  " "simplified_key" (quote p.shortKey) "" ++ ("," ++
      (field "\n  " "kernels"
        ("[" ++ ("\n" ++ (Manifest.kernels p.kernels ++ "  ") ++ "]")) "" ++ ("," ++
      field "\n  " "source" (quote p.source) "\n"))))))) ++ ("\x7d" ++ "\n")) := by
  have hopen : "\x7b\n" = "\x7b" ++ "\n" := rfl
  have hname : "  \"name\": " = "  " ++ (quote "name" ++ ": ") := by decide +kernel
  have hkey : "  \"cache_key\": " = "  " ++ (quote "cache_key" ++ ": ") := by decide +kernel
  have hshort : "  \"simplified_key\": " = "  " ++ (quote "simplified_key" ++ ": ") := by
    decide +kernel
  have hkernels : "  \"kernels\": [\n" =
      "  " ++ (quote "kernels" ++ (": " ++ ("[" ++ "\n"))) := by decide +kernel
  have hsource : "  \"source\": " = "  " ++ (quote "source" ++ ": ") := by decide +kernel
  have hlist : "  ],\n" = "  " ++ ("]" ++ ("," ++ "\n")) := rfl
  have hcomma : ",\n" = "," ++ "\n" := rfl
  have hclose : "\x7d\n" = "\x7d" ++ "\n" := rfl
  have hline : "\n  " = "\n" ++ "  " := rfl
  unfold manifest field
  simp only [hopen, hname, hkey, hshort, hkernels, hsource, hlist, hcomma, hclose, hline,
    String.append_assoc, String.append_empty]

theorem Program.textOf_manifest (p : Program) : Json.TextOf p.json p.manifest := by
  have hline : Json.Blanks "\n  ".toList := by simp [Json.Blanks, Json.isBlank]
  have hend : Json.Blanks "\n".toList := by simp [Json.Blanks, Json.isBlank]
  have hobject : Json.Written (.value p.json) _ :=
    written_object (listed_field "\n  " "name" hline (written_quote p.name)
      (listed_field "\n  " "cache_key" hline (written_quote p.key)
        (listed_field "\n  " "simplified_key" hline (written_quote p.shortKey)
          (listed_field "\n  " "kernels" hline (written_kernelList p.kernels)
            (.last (memberText_field "\n  " "source" "\n" hline hend
              (written_quote p.source)))))))
  have hpadded := written_padded "" "\n" (by simp [Json.Blanks]) hend hobject
  rw [Json.TextOf, manifest_eq]
  simpa only [String.append_assoc, String.empty_append] using hpadded

/-- A reader of JSON texts that accepts all of them, with their values, and no others, reads from
a manifest the object with the name, the keys, the kernels and the source of the program. Two
manifests are equal only if all of these are. -/
theorem manifest_decodes :
    (∀ text v, Json.read text = some v ↔ Json.TextOf v text) ∧
    (∀ p : Program, Json.read p.manifest = some p.json) ∧
    ∀ p q : Program, p.manifest = q.manifest ↔ p.name = q.name ∧ p.key = q.key ∧ p.shortKey =
      q.shortKey ∧ p.kernels = q.kernels ∧ p.source = q.source := by
  have hreads : ∀ p : Program, Json.read p.manifest = some p.json := fun p =>
    Json.read_eq_some_iff.mpr p.textOf_manifest
  refine ⟨fun text v => Json.read_eq_some_iff, hreads, fun p q => ⟨fun h => ?_, ?_⟩⟩
  · have hjson : some p.json = some q.json := by rw [← hreads p, h, hreads q]
    exact Program.json_eq_iff.mp (Option.some.inj hjson)
  · rintro ⟨hname, hkey, hshort, hkernels, hsource⟩
    unfold Program.manifest
    simp only [hname, hkey, hshort, hkernels, hsource]

end LinearKernels
