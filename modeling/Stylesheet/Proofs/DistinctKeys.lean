/-
Keys of a document that was read.

A reader puts a field over those it has read, so that a key that comes twice is one field. No
object that is read has a key twice, then, however deep it lies (`distinct_of_ofText?`). Where
fields are laid over others this matters: of two fields with one key the first would be found and
the last would be laid on top.

The three reading functions call each other with a bound that goes down, and the induction is on
that bound, for all three at once. Fields are read into what was read before them, so what is said
of them is what one more field keeps.
-/
import Stylesheet.Json.Reader

set_option autoImplicit false

namespace Stylesheet

/-- A value that is put under a key does not make a key come twice. -/
theorem Assoc.nodup_keys_put {κ α : Type} [DecidableEq κ] {entries : Assoc κ α}
    (h : (keys entries).Nodup) (key : κ) (value : α) : (keys (put entries key value)).Nodup := by
  rw [keys_put]
  split
  · exact h
  · rename_i hkey
    rw [List.nodup_append]
    refine ⟨h, by simp, ?_⟩
    intro k hk k' hk' heq
    rw [List.mem_singleton] at hk'
    rw [heq, hk'] at hk
    exact hkey hk

namespace Json

/-- No object in a value has a key twice. -/
inductive Distinct : Json → Prop where
  | null : Distinct .null
  | bool (b : Bool) : Distinct (.bool b)
  | number (n : Number) : Distinct (.number n)
  | string (s : String) : Distinct (.string s)
  | array {items : List Json} (h : ∀ item ∈ items, Distinct item) : Distinct (.array items)
  | object {fields : Fields} (hkeys : (Assoc.keys fields).Nodup)
      (h : ∀ field ∈ fields, Distinct field.2) : Distinct (.object fields)

namespace Distinct

theorem empty : Distinct (.object []) := .object List.nodup_nil nofun

theorem put {fields : Fields} {value : Json} (hfields : Distinct (.object fields))
    (hvalue : Distinct value) (key : String) :
    Distinct (.object (Assoc.put fields key value)) := by
  cases hfields with
  | object hkeys hmembers =>
      refine .object (Assoc.nodup_keys_put hkeys key value) ?_
      intro field hfield
      rcases Assoc.mem_put hfield with rfl | hfield
      · exact hvalue
      · exact hmembers field hfield

end Distinct

/-- With this bound the reading functions give values in which no key comes twice. Fields are read
over some that were there before. -/
structure ReadsDistinct (bound : Nat) : Prop where
  value : ∀ {cs rest : List Char} {v : Json}, value? bound cs = some (v, rest) → Distinct v
  items : ∀ {cs rest : List Char} {vs : List Json}, items? bound cs = some (vs, rest) →
    ∀ v ∈ vs, Distinct v
  fields : ∀ {read fields : Fields} {cs rest : List Char}, Distinct (.object read) →
    fields? bound read cs = some (fields, rest) → Distinct (.object fields)

namespace ReadsDistinct

variable {bound : Nat}

theorem value_succ (h : ReadsDistinct bound) {cs rest : List Char} {v : Json}
    (hread : value? (bound + 1) cs = some (v, rest)) : Distinct v := by
  rw [value?] at hread
  -- by what it begins with: quoted text, an array, an object, the words, the numerals
  split at hread
  case h_1 =>
    obtain ⟨s, -, hs⟩ := Option.map_eq_some_iff.1 hread
    cases hs
    exact .string _
  case h_2 =>
    split at hread
    · cases hread
      exact .array nofun
    · obtain ⟨vs, hvs, hv⟩ := Option.map_eq_some_iff.1 hread
      cases hv
      exact .array (h.items hvs)
  case h_3 =>
    split at hread
    · cases hread
      exact .empty
    · obtain ⟨fields, hfields, hv⟩ := Option.map_eq_some_iff.1 hread
      cases hv
      exact h.fields .empty hfields
  case h_4 =>
    obtain ⟨_, -, hv⟩ := Option.map_eq_some_iff.1 hread
    cases hv
    exact .null
  case h_5 | h_6 =>
    obtain ⟨_, -, hv⟩ := Option.map_eq_some_iff.1 hread
    cases hv
    exact .bool _
  case h_7 | h_8 | h_9 =>
    obtain ⟨_, -, hv⟩ := Option.map_eq_some_iff.1 hread
    cases hv
    exact .number _

theorem items_succ (h : ReadsDistinct bound) {cs rest : List Char} {vs : List Json}
    (hread : items? (bound + 1) cs = some (vs, rest)) : ∀ v ∈ vs, Distinct v := by
  rw [items?] at hread
  split at hread
  · cases hread
  · rename_i item after hitem
    have hfirst : Distinct item := h.value hitem
    split at hread
    · cases hread
      exact fun v hv => List.mem_singleton.1 hv ▸ hfirst
    · obtain ⟨others, hothers, hvs⟩ := Option.map_eq_some_iff.1 hread
      cases hvs
      intro v hv
      rcases List.mem_cons.1 hv with rfl | hv
      · exact hfirst
      · exact h.items hothers v hv
    · cases hread

theorem fields_succ (h : ReadsDistinct bound) {read fields : Fields} {cs rest : List Char}
    (hbefore : Distinct (.object read))
    (hread : fields? (bound + 1) read cs = some (fields, rest)) : Distinct (.object fields) := by
  rw [fields?] at hread
  split at hread
  · split at hread
    · cases hread
    · rename_i key _ _
      split at hread
      · split at hread
        · cases hread
        · rename_i value _ hvalue
          -- a key that was read before is replaced here, so the rest is read over distinct keys
          have hone : Distinct (.object (Assoc.put read key value)) :=
            hbefore.put (h.value hvalue) key
          split at hread
          · cases hread
            exact hone
          · exact h.fields hone hread
          · cases hread
      · cases hread
  · cases hread

/-- With any bound no key comes twice. -/
theorem all (bound : Nat) : ReadsDistinct bound := by
  induction bound with
  | zero =>
      constructor
      · intro _ _ _ hread
        cases hread
      · intro _ _ _ hread
        cases hread
      · intro _ _ _ _ _ hread
        cases hread
  | succ bound ih => exact ⟨ih.value_succ, ih.items_succ, ih.fields_succ⟩

end ReadsDistinct

/-- **A document that is read** has no key twice, in any of its objects. -/
theorem distinct_of_ofText? {s : String} {v : Json} (h : ofText? s = some v) : Distinct v := by
  simp only [ofText?] at h
  split at h
  · rename_i value rest hvalue
    split at h
    · cases h
      exact (ReadsDistinct.all _).value hvalue
    · cases h
  · cases h

end Json

end Stylesheet
