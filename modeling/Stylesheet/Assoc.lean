/-
Lists of keys with values, in the order in which the keys first came.

Putting a value under a key that is there replaces the value and keeps the place; a new key
comes last, which the first two laws say. Two more laws say what is found after that, under the key
and under any other; a fifth says that nothing else has come in, and a sixth that the keys are where
something is found.
-/

set_option autoImplicit false

namespace Stylesheet

/-- Keys with values, in order. -/
abbrev Assoc (κ α : Type) := List (κ × α)

namespace Assoc

variable {κ α : Type} [DecidableEq κ]

/-- The value under a key. -/
def get? : Assoc κ α → κ → Option α
  | [], _ => none
  | (k, v) :: rest, key => if k = key then some v else get? rest key

/-- Whether there is a value under a key. -/
def has (entries : Assoc κ α) (key : κ) : Bool :=
  (get? entries key).isSome

/-- The list with a value under a key. -/
def put (entries : Assoc κ α) (key : κ) (value : α) : Assoc κ α :=
  match entries with
  | [] => [(key, value)]
  | (k, v) :: rest => if k = key then (k, value) :: rest else (k, v) :: put rest key value

/-- The list without a key. -/
def erase (entries : Assoc κ α) (key : κ) : Assoc κ α :=
  entries.filter fun e => e.1 ≠ key

/-- The first list with the values of the second put over it. -/
def merge (below above : Assoc κ α) : Assoc κ α :=
  above.foldl (fun entries e => put entries e.1 e.2) below

/-- The keys, in order. -/
def keys (entries : Assoc κ α) : List κ :=
  entries.map (·.1)

theorem put_of_notMem_keys {entries : Assoc κ α} {key : κ} (h : key ∉ keys entries) (value : α) :
    put entries key value = entries ++ [(key, value)] := by
  induction entries with
  | nil => rfl
  | cons e rest ih =>
    obtain ⟨k, v⟩ := e
    rw [keys, List.map_cons, List.mem_cons, not_or] at h
    rw [put, if_neg (Ne.symm h.1), ih h.2, List.cons_append]

theorem keys_put (entries : Assoc κ α) (key : κ) (value : α) :
    keys (put entries key value)
      = if key ∈ keys entries then keys entries else keys entries ++ [key] := by
  by_cases h : key ∈ keys entries
  · rw [if_pos h]
    induction entries with
    | nil => cases h
    | cons e rest ih =>
      obtain ⟨k, v⟩ := e
      by_cases hk : k = key
      · simp [put, keys, hk]
      · rw [keys, List.map_cons, List.mem_cons] at h
        rw [put, if_neg hk]
        exact congrArg (k :: ·) (ih (h.resolve_left (Ne.symm hk)))
  · rw [if_neg h, put_of_notMem_keys h, keys, List.map_append]
    rfl

theorem get?_put_self (entries : Assoc κ α) (key : κ) (value : α) :
    get? (put entries key value) key = some value := by
  induction entries with
  | nil => simp [put, get?]
  | cons e rest ih =>
    obtain ⟨k, v⟩ := e
    by_cases h : k = key
    · simp [put, get?, h]
    · simp [put, get?, h, ih]

theorem get?_put_of_ne {key other : κ} (h : key ≠ other) (entries : Assoc κ α) (value : α) :
    get? (put entries key value) other = get? entries other := by
  induction entries with
  | nil => simp [put, get?, h]
  | cons e rest ih =>
    obtain ⟨k, v⟩ := e
    by_cases hk : k = key
    · subst hk
      simp [put, get?, h]
    · by_cases ho : k = other
      · subst ho
        simp [put, get?, hk]
      · simp [put, get?, hk, ho, ih]

theorem mem_put {entries : Assoc κ α} {key : κ} {value : α} {e : κ × α}
    (h : e ∈ put entries key value) : e = (key, value) ∨ e ∈ entries := by
  induction entries with
  | nil => simpa [put] using h
  | cons d rest ih =>
    obtain ⟨k, v⟩ := d
    by_cases hk : k = key
    · rw [put, if_pos hk, hk] at h
      rcases List.mem_cons.1 h with h | h
      · exact .inl h
      · exact .inr (List.mem_cons_of_mem _ h)
    · rw [put, if_neg hk] at h
      rcases List.mem_cons.1 h with h | h
      · exact .inr (h ▸ List.mem_cons_self)
      · exact (ih h).imp_right (List.mem_cons_of_mem _)

theorem get?_isSome_iff_mem_keys (entries : Assoc κ α) (key : κ) :
    (get? entries key).isSome ↔ key ∈ keys entries := by
  induction entries with
  | nil => simp [get?, keys]
  | cons e rest ih =>
    obtain ⟨k, v⟩ := e
    rw [keys] at ih
    by_cases h : k = key
    · simp [get?, keys, h]
    · simp [get?, keys, h, Ne.symm h, ih]

end Assoc

end Stylesheet
