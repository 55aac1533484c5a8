/-
The calls of a declaration are those in it that no other declaration in it encloses.

The walk keeps a stack of the declarations that are open, and records a call with the innermost
of them. Two facts carry the argument, each by induction over the tree. The steps of a tree leave
the stack as they found it (`openDeclarations_foldl_steps`), so what is recorded is recorded with
the declaration around the tree, and that is only the part of the tree that is not inside a
declaration of its own (`recorded_foldl_steps`).

A declaration that hangs in several places is walked several times. Each time its calls are
recorded anew from nothing, so they stand there once.
-/
import Stylesheet.Proofs.Ancestry

set_option autoImplicit false

namespace Stylesheet

namespace Node

/-! ## Calls that no declaration encloses -/

/-- The calls of `var` in a tree that are in no declaration of the tree, in preorder. -/
def looseCalls (n : Node) : List Node :=
  if n.kind = .declaration then []
  else (if n.isVar then [n] else []) ++ n.children.attach.flatMap fun ⟨c, _⟩ => looseCalls c
termination_by sizeOf n
decreasing_by exact sizeOf_lt_of_mem_children ‹_›

/-- The calls of a declaration: those below it that no other declaration below it encloses. -/
def ownCalls (d : Node) : List Node := d.children.flatMap looseCalls

/-- What is loose in a node that is no declaration: itself if it is a call, and what is loose in
its children. -/
theorem looseCalls_eq {n : Node} (h : n.kind ≠ .declaration) :
    n.looseCalls = (if n.isVar then [n] else []) ++ n.children.flatMap looseCalls := by
  rw [looseCalls, if_neg h]
  simp

theorem looseCalls_of_declaration {n : Node} (h : n.kind = .declaration) :
    n.looseCalls = [] := by
  rw [looseCalls, if_pos h]

/-- In a tree without declarations all calls are loose. -/
theorem looseCalls_eq_filter {n : Node} (h : ∀ m ∈ n.preorder, m.kind ≠ .declaration) :
    n.looseCalls = n.preorder.filter isVar := by
  induction n using induction_children with
  | h n ih =>
      have hchildren : n.children.flatMap looseCalls
          = n.children.flatMap fun c => c.preorder.filter isVar := by
        refine List.flatMap_congr fun c hc => ih c hc fun m hm => h m ?_
        exact preorder_subset (mem_preorder_of_mem_children (self_mem_preorder n) hc) m hm
      rw [looseCalls_eq (h n (self_mem_preorder n)), hchildren, preorder_eq, List.filter_cons,
        List.filter_flatMap]
      cases n.isVar <;> rfl

end Node

namespace CallsFound

/-! ## One step -/

/-- The calls recorded with a declaration. -/
def recorded (found : CallsFound) (k : Nat) : List Node := (Assoc.get? found.calls k).getD []

variable {n : Node} {parent : Option Node}

theorem step_enter_declaration (h : n.kind = .declaration) (found : CallsFound) :
    found.step ⟨.enter, n, parent⟩
      = ⟨n.id :: found.openDeclarations, Assoc.put found.calls n.id []⟩ := by
  obtain ⟨m, property, value, important, rfl⟩ := Node.exists_eq_declaration h
  rfl

theorem step_exit_declaration (h : n.kind = .declaration) (found : CallsFound) :
    found.step ⟨.exit, n, parent⟩ = ⟨found.openDeclarations.tail, found.calls⟩ := by
  obtain ⟨m, property, value, important, rfl⟩ := Node.exists_eq_declaration h
  rfl

theorem step_exit_other (h : n.kind ≠ .declaration) (found : CallsFound) :
    found.step ⟨.exit, n, parent⟩ = found := by
  cases n with
  | declaration m property value important => exact absurd rfl h
  | _ => rfl

/-- Entering any other node leaves the declarations open that are. -/
theorem openDeclarations_enter_other (h : n.kind ≠ .declaration) (found : CallsFound) :
    (found.step ⟨.enter, n, parent⟩).openDeclarations = found.openDeclarations := by
  cases n with
  | declaration m property value important => exact absurd rfl h
  | group m g ns =>
      simp only [step]
      split
      · split <;> rfl
      · rfl
  | _ => rfl

/-- Entering any other node records it with the innermost declaration, if it is a call. -/
theorem recorded_enter_other (h : n.kind ≠ .declaration) (found : CallsFound) (k : Nat) :
    (found.step ⟨.enter, n, parent⟩).recorded k
      = found.recorded k
        ++ if found.openDeclarations.head? = some k then (if n.isVar then [n] else []) else [] := by
  have hstep : found.step ⟨.enter, n, parent⟩
      = if n.isVar then found.openDeclarations.head?.elim found fun d =>
          { found with calls := Assoc.put found.calls d (found.recorded d ++ [n]) }
        else found := by
    cases n with
    | declaration m property value important => exact absurd rfl h
    | group m g ns =>
        simp only [step]
        split
        · cases hopen : found.openDeclarations <;> rfl
        · rfl
    | _ => rfl
  rw [hstep]
  by_cases hvar : n.isVar = true
  · rw [if_pos hvar, if_pos hvar]
    cases hopen : found.openDeclarations with
    | nil => simp
    | cons d rest =>
        by_cases hk : d = k
        · simp [recorded, hk, Assoc.get?_put_self]
        · simp [recorded, hk, Assoc.get?_put_of_ne hk]
  · simp [hvar]

/-! ## The steps of a tree -/

/-- **The stack.** The steps of a tree leave the open declarations as they were. -/
theorem openDeclarations_foldl_steps (n : Node) (parent : Option Node) (found : CallsFound) :
    ((n.steps parent).foldl step found).openDeclarations = found.openDeclarations := by
  induction n using Node.induction_children generalizing parent found with
  | h n ih =>
      have hchildren : ∀ (cs : List Node), (∀ c ∈ cs, c ∈ n.children) → ∀ found : CallsFound,
          ((cs.flatMap (Node.steps (some n))).foldl step found).openDeclarations
            = found.openDeclarations := by
        intro cs hcs found
        induction cs generalizing found with
        | nil => rfl
        | cons c cs ihcs =>
            rw [List.flatMap_cons, List.foldl_append,
              ihcs fun d hd => hcs d (List.mem_cons_of_mem c hd)]
            exact ih c (hcs c List.mem_cons_self) (some n) found
      rw [Node.steps_eq, List.foldl_cons, List.foldl_append, List.foldl_cons, List.foldl_nil]
      by_cases hn : n.kind = .declaration
      · -- the children leave the declaration open that was entered, and leaving it closes it
        rw [step_exit_declaration hn]
        simp only [hchildren n.children fun c hc => hc]
        rw [step_enter_declaration hn, List.tail_cons]
      · rw [step_exit_other hn, hchildren n.children fun c hc => hc,
          openDeclarations_enter_other hn]

/-- What the steps of several trees record, if each of them records what is loose in it. -/
theorem recorded_foldl_flatMap {k : Nat} {parent : Option Node} {cs : List Node}
    (h : ∀ c ∈ cs, ∀ found : CallsFound,
      ((c.steps parent).foldl step found).recorded k
        = found.recorded k
          ++ if found.openDeclarations.head? = some k then c.looseCalls else [])
    (found : CallsFound) :
    ((cs.flatMap (Node.steps parent)).foldl step found).recorded k
      = found.recorded k
        ++ if found.openDeclarations.head? = some k then cs.flatMap Node.looseCalls else [] := by
  induction cs generalizing found with
  | nil => simp
  | cons c cs ih =>
      rw [List.flatMap_cons, List.foldl_append, ih fun d hd => h d (List.mem_cons_of_mem c hd),
        h c List.mem_cons_self, openDeclarations_foldl_steps, List.append_assoc]
      split
      · rw [List.flatMap_cons]
      · rfl

/-- **What a tree records** with a declaration that is not in it: what is loose in the tree, if
that declaration is the innermost around it, and else nothing. -/
theorem recorded_foldl_steps {k : Nat} (n : Node) (parent : Option Node)
    (hk : ∀ m ∈ n.preorder, m.kind = .declaration → m.id ≠ k) (found : CallsFound) :
    ((n.steps parent).foldl step found).recorded k
      = found.recorded k
        ++ if found.openDeclarations.head? = some k then n.looseCalls else [] := by
  induction n using Node.induction_children generalizing parent found with
  | h n ih =>
      have hself := Node.self_mem_preorder n
      have hchildren : ∀ found : CallsFound,
          ((n.children.flatMap (Node.steps (some n))).foldl step found).recorded k
            = found.recorded k ++ if found.openDeclarations.head? = some k then
                n.children.flatMap Node.looseCalls else [] :=
        recorded_foldl_flatMap fun c hc => ih c hc (some n) fun m hm =>
          hk m (Node.preorder_subset (Node.mem_preorder_of_mem_children hself hc) m hm)
      rw [Node.steps_eq, List.foldl_cons, List.foldl_append, List.foldl_cons, List.foldl_nil]
      by_cases hn : n.kind = .declaration
      · -- below a declaration it is the innermost one, so nothing goes to the other
        have hne := hk n hself hn
        have hopen : (n.id :: found.openDeclarations).head? ≠ some k := by simpa using hne
        rw [step_exit_declaration hn, Node.looseCalls_of_declaration hn, ite_self,
          List.append_nil]
        show CallsFound.recorded (List.foldl _ _ _) k = _
        rw [hchildren, step_enter_declaration hn, if_neg hopen, List.append_nil, recorded,
          Assoc.get?_put_of_ne hne]
        rfl
      · rw [step_exit_other hn, hchildren, openDeclarations_enter_other hn,
          recorded_enter_other hn, List.append_assoc, Node.looseCalls_eq hn]
        split <;> rfl

/-- What a declaration has recorded after the steps of several trees: its own calls, if it had
them before or stands in one of the trees. -/
theorem recorded_flatMap_of_mem {d : Node} {parent : Option Node} {cs : List Node}
    (h : ∀ c ∈ cs, d ∈ c.preorder → ∀ found : CallsFound,
      found.openDeclarations.head? ≠ some d.id →
        ((c.steps parent).foldl step found).recorded d.id = d.ownCalls)
    (hid : ∀ c ∈ cs, ∀ m ∈ c.preorder, m.id = d.id → m = d) {found : CallsFound}
    (hopen : found.openDeclarations.head? ≠ some d.id)
    (hmem : found.recorded d.id = d.ownCalls ∨ ∃ c ∈ cs, d ∈ c.preorder) :
    ((cs.flatMap (Node.steps parent)).foldl step found).recorded d.id = d.ownCalls := by
  induction cs generalizing found with
  | nil =>
      rcases hmem with hmem | ⟨c, hc, -⟩
      · exact hmem
      · cases hc
  | cons c cs ih =>
      rw [List.flatMap_cons, List.foldl_append]
      refine ih (fun b hb => h b (List.mem_cons_of_mem c hb))
        (fun b hb => hid b (List.mem_cons_of_mem c hb)) ?_ ?_
      · rw [openDeclarations_foldl_steps]
        exact hopen
      · by_cases hdc : d ∈ c.preorder
        · exact .inl (h c List.mem_cons_self hdc found hopen)
        · -- the declaration is not in this tree, so the tree records nothing with it
          have hk : ∀ m ∈ c.preorder, m.kind = .declaration → m.id ≠ d.id :=
            fun m hm _ heq => hdc (hid c List.mem_cons_self m hm heq ▸ hm)
          rw [recorded_foldl_steps c parent hk, if_neg hopen, List.append_nil]
          refine hmem.imp_right ?_
          rintro ⟨b, hb, hdb⟩
          rcases List.mem_cons.1 hb with rfl | hb
          · exact absurd hdb hdc
          · exact ⟨b, hb, hdb⟩

/-- **What a declaration has recorded** after the steps of a tree it stands in: its own calls,
however often it stands there. -/
theorem recorded_of_mem {d : Node} (hd : d.kind = .declaration) (n : Node)
    (parent : Option Node) (hmem : d ∈ n.preorder) (hid : ∀ m ∈ n.preorder, m.id = d.id → m = d)
    {found : CallsFound} (hopen : found.openDeclarations.head? ≠ some d.id) :
    ((n.steps parent).foldl step found).recorded d.id = d.ownCalls := by
  induction n using Node.induction_children generalizing parent found with
  | h n ih =>
      have hself := Node.self_mem_preorder n
      have hsub : ∀ c ∈ n.children, ∀ m ∈ c.preorder, m ∈ n.preorder := fun c hc =>
        Node.preorder_subset (Node.mem_preorder_of_mem_children hself hc)
      have hexit : ∀ found : CallsFound,
          (found.step ⟨.exit, n, parent⟩).recorded d.id = found.recorded d.id := by
        intro found
        by_cases hn : n.kind = .declaration
        · rw [step_exit_declaration hn]
          rfl
        · rw [step_exit_other hn]
      rw [Node.steps_eq, List.foldl_cons, List.foldl_append, List.foldl_cons, List.foldl_nil,
        hexit]
      by_cases hnd : n = d
      · subst hnd
        -- a declaration is not below itself, so all below it is recorded with it
        have hbelow : ∀ c ∈ n.children, ∀ m ∈ c.preorder, m.kind = .declaration →
            m.id ≠ n.id := by
          intro c hc m hm _ heq
          obtain ⟨above, ht⟩ := Node.mem_preorder_iff.1 hm
          have hlt := (ht.of_child hc).sizeOf_lt n (by simp)
          rw [hid m (hsub c hc m hm) heq] at hlt
          exact Nat.lt_irrefl _ hlt
        rw [recorded_foldl_flatMap fun c hc => recorded_foldl_steps c (some n) (hbelow c hc),
          step_enter_declaration hd, recorded, Assoc.get?_put_self]
        simp [Node.ownCalls]
      · -- the declaration stands below this node, in the tree of one child or of several
        apply recorded_flatMap_of_mem
        · exact fun c hc hdc found => ih c hc (some n) hdc fun m hm => hid m (hsub c hc m hm)
        · exact fun c hc m hm => hid m (hsub c hc m hm)
        · by_cases hn : n.kind = .declaration
          · rw [step_enter_declaration hn, List.head?_cons]
            exact fun heq => hnd (hid n hself (Option.some.inj heq))
          · rw [openDeclarations_enter_other hn]
            exact hopen
        · rw [Node.preorder_eq] at hmem
          rcases List.mem_cons.1 hmem with heq | hmem
          · exact absurd heq.symm hnd
          · exact .inr (List.mem_flatMap.1 hmem)

end CallsFound

/-- **The calls of a declaration** that the walk has found are its own. -/
theorem Walk.callsIn_ofSteps {root d : Node} (hid : root.Identified) (hmem : d ∈ root.preorder)
    (hd : d.kind = .declaration) : (ofSteps (root.steps none)).callsIn d = d.ownCalls := by
  refine CallsFound.recorded_of_mem hd root none hmem (fun m hm heq => hid m hm d hmem heq) ?_
  simp

end Stylesheet
