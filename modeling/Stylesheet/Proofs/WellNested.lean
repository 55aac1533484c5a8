/-
Values of a well-nested concrete tree are tight.

A grammar gives ranges that are nested: each node lies inside its parent, and its children one
behind the other. Nothing else is asked of a concrete tree here; it may be damaged, and its kinds
may stand in any order. The ruler keeps the order of octets, so what is made from nodes that lie
one behind the other lies one behind the other too, and operations that come out flat keep their
operands in order.
-/
import Stylesheet.Proofs.Built
import Stylesheet.Proofs.Ruler
import Stylesheet.Proofs.Spans

set_option autoImplicit false

namespace Stylesheet

open Made

namespace Concrete

/-! ## Ranges in a row -/

/-- Nodes lie between two octets, each ending before the next begins. -/
def InRow (lo hi : Int) (cs : List Concrete) : Prop :=
  (∀ c ∈ cs, lo ≤ c.start ∧ c.start ≤ c.stop ∧ c.stop ≤ hi)
    ∧ cs.Pairwise fun c d => c.stop ≤ d.start

/-- A tree lies within a text of so many octets, and below each node of it the children lie inside
the node, in order and disjoint. -/
structure WellNested (root : Concrete) (length : Nat) : Prop where
  start_nonneg : 0 ≤ root.start
  start_le : root.start ≤ root.stop
  stop_le : root.stop ≤ length
  children : ∀ c ∈ root.walk, InRow c.start c.stop c.children

instance (lo hi : Int) (cs : List Concrete) : Decidable (InRow lo hi cs) :=
  inferInstanceAs (Decidable (_ ∧ _))

instance (root : Concrete) (length : Nat) : Decidable (root.WellNested length) :=
  decidable_of_iff (0 ≤ root.start ∧ root.start ≤ root.stop ∧ root.stop ≤ length
      ∧ ∀ c ∈ root.walk, InRow c.start c.stop c.children)
    ⟨fun ⟨hlo, hle, hhi, hrow⟩ => ⟨hlo, hle, hhi, hrow⟩,
      fun h => ⟨h.start_nonneg, h.start_le, h.stop_le, h.children⟩⟩

theorem InRow.sublist {lo hi : Int} {cs ds : List Concrete} (h : InRow lo hi cs)
    (hsub : List.Sublist ds cs) : InRow lo hi ds :=
  ⟨fun d hd => h.1 d (hsub.subset hd), h.2.sublist hsub⟩

theorem InRow.mono {lo lo' hi hi' : Int} {cs : List Concrete} (h : InRow lo hi cs)
    (hlo : lo' ≤ lo) (hhi : hi ≤ hi') : InRow lo' hi' cs :=
  ⟨fun c hc => ⟨Int.le_trans hlo (h.1 c hc).1, (h.1 c hc).2.1,
    Int.le_trans (h.1 c hc).2.2 hhi⟩, h.2⟩

/-- The nodes before one in a row end before it begins, and those behind it begin after it. -/
theorem InRow.split {lo hi : Int} {before after : List Concrete} {c : Concrete}
    (h : InRow lo hi (before ++ c :: after)) :
    InRow lo c.start before ∧ InRow c.stop hi after := by
  obtain ⟨hwithin, hpairwise⟩ := h
  obtain ⟨hbefore, hafter, hcross⟩ := List.pairwise_append.1 hpairwise
  obtain ⟨hfirst, hafter⟩ := List.pairwise_cons.1 hafter
  refine ⟨⟨fun d hd => ?_, hbefore⟩, ⟨fun d hd => ?_, hafter⟩⟩
  · have hd' := hwithin d (List.mem_append_left _ hd)
    exact ⟨hd'.1, hd'.2.1, hcross d hd c List.mem_cons_self⟩
  · have hd' := hwithin d (List.mem_append_right _ (List.mem_cons_of_mem c hd))
    exact ⟨hfirst d hd, hd'.2.1, hd'.2.2⟩

/-- Nodes in a row lie between the start of the first and the end of the last. -/
theorem InRow.tighten {lo hi : Int} {cs : List Concrete} (h : InRow lo hi cs)
    {first last : Concrete} (hfirst : cs.head? = some first) (hlast : cs.getLast? = some last) :
    InRow first.start last.stop cs := by
  refine ⟨fun c hc => ⟨?_, (h.1 c hc).2.1, ?_⟩, h.2⟩
  · obtain ⟨rest, rfl⟩ := List.head?_eq_some_iff.1 hfirst
    rcases List.mem_cons.1 hc with rfl | hc
    · exact Int.le_refl _
    · have hle := (h.1 first List.mem_cons_self).2.1
      exact Int.le_trans hle ((List.pairwise_cons.1 h.2).1 c hc)
  · obtain ⟨init, rfl⟩ := List.getLast?_eq_some_iff.1 hlast
    rcases List.mem_append.1 hc with hc | hc
    · have hle := (h.1 last (by simp)).2.1
      exact Int.le_trans ((List.pairwise_append.1 h.2).2.2 c hc last (by simp)) hle
    · obtain rfl := List.mem_singleton.1 hc
      exact Int.le_refl _

/-! ## Choices among children

A row stays a row when nodes are taken out of it. So whatever a builder chooses among the children
of a node is in a row in that node. -/

variable {root : Concrete} {length : Nat}

theorem WellNested.significant (h : root.WellNested length) {c : Concrete} (hc : c ∈ root.walk) :
    InRow c.start c.stop c.significant :=
  (h.children c hc).sublist List.filter_sublist

theorem WellNested.inner (h : root.WellNested length) {c : Concrete} (hc : c ∈ root.walk) :
    InRow c.start c.stop c.inner :=
  (h.significant hc).sublist List.filter_sublist

theorem WellNested.members (h : root.WellNested length) {c : Concrete} (hc : c ∈ root.walk) :
    InRow c.start c.stop c.members :=
  (h.significant hc).sublist List.filter_sublist

theorem WellNested.callArguments (h : root.WellNested length) {c : Concrete}
    (hc : c ∈ root.walk) : InRow c.start c.stop c.callArguments := by
  rw [Concrete.callArguments]
  cases hchild : c.child? "arguments" with
  | none => exact ⟨by simp, .nil⟩
  | some d =>
      have hd := List.mem_of_find?_eq_some hchild
      have hrange := (h.children c hc).1 d hd
      exact (h.inner (mem_walk_of_mem_children hc hd)).mono hrange.1 hrange.2.2

theorem WellNested.valueNodes (h : root.WellNested length) {c : Concrete} (hc : c ∈ root.walk) :
    InRow c.start c.stop c.valueNodes :=
  (h.significant hc).sublist <|
    List.filter_sublist.trans <| (List.tail_sublist _).trans (List.dropWhile_sublist _)

/-- What stands below a node of a well-nested tree lies within that node. -/
theorem WellNested.within (h : root.WellNested length) (b : Concrete) (hb : b ∈ root.walk)
    (hle : b.start ≤ b.stop) {c : Concrete} (hc : c ∈ b.walk) :
    b.start ≤ c.start ∧ c.start ≤ c.stop ∧ c.stop ≤ b.stop := by
  rw [walk_eq] at hc
  rcases List.mem_cons.1 hc with rfl | hc
  · exact ⟨Int.le_refl _, hle, Int.le_refl _⟩
  · obtain ⟨d, hd, hcd⟩ := List.mem_flatMap.1 hc
    have hrange := (h.children b hb).1 d hd
    have := sizeOf_lt_of_mem_children hd
    have hbelow := h.within d (mem_walk_of_mem_children hb hd) hrange.2.1 hcd
    omega
termination_by sizeOf b

theorem WellNested.range (h : root.WellNested length) {c : Concrete} (hc : c ∈ root.walk) :
    0 ≤ c.start ∧ c.start ≤ c.stop ∧ c.stop ≤ length := by
  have hroot := h.within root (self_mem_walk root) h.start_le hc
  have hlo := h.start_nonneg
  have hhi := h.stop_le
  omega

end Concrete

/-! ## Marks

A mark has the character offsets of the octets it is made from, and the ruler keeps their order.
What lies between octets lies between their characters. -/

namespace Source

variable {src : Source}

theorem markAt_eq_ok {start stop : Int} {m : Mark} (h : src.markAt start stop = .ok m) :
    ∃ loc, m.loc = some loc ∧ loc.start.offset = src.ruler.charOffset start
      ∧ loc.stop.offset = src.ruler.charOffset stop := by
  rw [markAt, spot] at h
  cases hloc : src.location start stop with
  | error e =>
      rw [hloc] at h
      cases h
  | ok loc =>
      rw [hloc] at h
      obtain rfl := Except.ok.inj h
      obtain ⟨hstart, hstop⟩ := Location.between_eq_ok hloc
      exact ⟨loc, rfl, by rw [hstart]; rfl, by rw [hstop]; rfl⟩

theorem within_of_markAt {start stop lo hi : Int} {m : Mark} {n : Node}
    (h : src.markAt start stop = .ok m) (hn : n.mark = m) (hlo : lo ≤ start) (hhi : stop ≤ hi) :
    n.Within (src.ruler.charOffset lo) (src.ruler.charOffset hi) := by
  obtain ⟨loc, hloc, hstart, hstop⟩ := markAt_eq_ok h
  refine ⟨loc, by rw [Node.loc, hn, hloc], ?_, ?_⟩
  · rw [hstart]
    exact src.ruler.charOffset_mono hlo
  · rw [hstop]
    exact src.ruler.charOffset_mono hhi

theorem everywhere_tight_of_markAt {start stop : Int} {m : Mark} {g : Group} {ns : List Node}
    (h : src.markAt start stop = .ok m)
    (hrow : Node.Row (src.ruler.charOffset start) (src.ruler.charOffset stop) ns)
    (htight : ∀ n ∈ ns, n.Everywhere Node.Tight) :
    (Node.group m g ns).Everywhere Node.Tight := by
  obtain ⟨loc, hloc, hstart, hstop⟩ := markAt_eq_ok h
  refine Node.everywhere_iff.2 ⟨⟨loc, hloc, ?_⟩, htight⟩
  rw [hstart, hstop]
  exact hrow

theorem leaf_tight_of_markAt {start stop : Int} {m : Mark} {l : Leaf}
    (h : src.markAt start stop = .ok m) : (Node.leaf m l).Everywhere Node.Tight := by
  obtain ⟨loc, hloc, -, -⟩ := markAt_eq_ok h
  exact Node.everywhere_iff.2 ⟨⟨loc, hloc, Node.row_nil _ _⟩, fun c hc => by cases hc⟩

end Source

namespace Concrete

variable {src : Source} {root : Concrete} {length : Nat}

/-! ## Values

Nodes that are laid may be put one behind the other, and a group is laid if its members are. With
these two the values of nodes in a row follow the recursion of their builder. -/

/-- Nodes lie between two octets of a source, one behind the other, and are tight. -/
def Laid (src : Source) (lo hi : Int) (ns : List Node) : Prop :=
  Node.Row (src.ruler.charOffset lo) (src.ruler.charOffset hi) ns
    ∧ ∀ n ∈ ns, n.Everywhere Node.Tight

theorem Laid.append {lo mid hi : Int} {ns ms : List Node} (hn : Laid src lo mid ns)
    (hm : Laid src mid hi ms) (hlo : lo ≤ mid) (hhi : mid ≤ hi) : Laid src lo hi (ns ++ ms) := by
  refine ⟨hn.1.append hm.1 (src.ruler.charOffset_mono hlo) (src.ruler.charOffset_mono hhi), ?_⟩
  intro n h
  rcases List.mem_append.1 h with h | h
  · exact hn.2 n h
  · exact hm.2 n h

theorem Laid.mono {lo lo' hi hi' : Int} {ns : List Node} (h : Laid src lo hi ns) (hlo : lo' ≤ lo)
    (hhi : hi ≤ hi') : Laid src lo' hi' ns :=
  ⟨h.1.mono (src.ruler.charOffset_mono hlo) (src.ruler.charOffset_mono hhi), h.2⟩

theorem laid_leaf {start stop lo hi : Int} {m : Mark} {l : Leaf}
    (h : src.markAt start stop = .ok m) (hlo : lo ≤ start) (hhi : stop ≤ hi) :
    Laid src lo hi [.leaf m l] := by
  refine ⟨(Source.within_of_markAt h rfl hlo hhi).row, fun n hn => ?_⟩
  obtain rfl := List.mem_singleton.1 hn
  exact Source.leaf_tight_of_markAt h

theorem laid_group {start stop : Int} {m : Mark} {g : Group} {ns : List Node}
    (h : src.markAt start stop = .ok m) (hns : Laid src start stop ns) :
    Laid src start stop [.group m g ns] := by
  refine ⟨(Source.within_of_markAt h rfl (Int.le_refl _) (Int.le_refl _)).row, fun n hn => ?_⟩
  obtain rfl := List.mem_singleton.1 hn
  exact Source.everywhere_tight_of_markAt h hns.1 hns.2

theorem row_concat {lo hi : Int} {cs : List Concrete} (hrow : InRow lo hi cs)
    {f : Concrete → Made (List Node)}
    (hf : ∀ c ∈ cs, ∀ ns, f c = .ok ns →
      Node.Row (src.ruler.charOffset c.start) (src.ruler.charOffset c.stop) ns) {ns : List Node}
    (h : Made.concat (cs.map f) = .ok ns) :
    Node.Row (src.ruler.charOffset lo) (src.ruler.charOffset hi) ns := by
  have hmono := fun {a b : Int} (hle : a ≤ b) => src.ruler.charOffset_mono hle
  induction cs generalizing lo ns with
  | nil =>
      obtain rfl := Except.ok.inj h
      exact Node.row_nil _ _
  | cons c cs ih =>
      simp only [List.map_cons, Made.concat, bind_eq_ok, pure_eq_ok] at h
      obtain ⟨ys, hys, zs, hzs, rfl⟩ := h
      obtain ⟨hlo, hle, hhi⟩ := hrow.1 c List.mem_cons_self
      have hfirst := (hf c List.mem_cons_self ys hys).mono (hmono hlo) (Int.le_refl _)
      have hrest := ih (@InRow.split lo hi [] cs c hrow).2
        (fun d hd => hf d (List.mem_cons_of_mem c hd)) hzs
      -- the first are in a row from the lower octet to the end of their node
      exact hfirst.append hrest (hmono (Int.le_trans hlo hle)) (hmono hhi)

theorem laid_concat {lo hi : Int} {cs : List Concrete} (hrow : InRow lo hi cs)
    {f : Concrete → Made (List Node)}
    (hf : ∀ c ∈ cs, ∀ ns, f c = .ok ns → Laid src c.start c.stop ns) {ns : List Node}
    (h : Made.concat (cs.map f) = .ok ns) : Laid src lo hi ns := by
  refine ⟨row_concat hrow (fun c hc ns hns => (hf c hc ns hns).1) h, fun n hn => ?_⟩
  obtain ⟨c, hc, made, hmade, hmem⟩ := mem_concat h n hn
  exact (hf c hc made hmade).2 n hmem

theorem row_present {lo hi : Int} {cs : List Concrete} (hrow : InRow lo hi cs)
    {f : Concrete → Made (Option Node)}
    (hf : ∀ c ∈ cs, ∀ n, f c = .ok (some n) →
      n.Within (src.ruler.charOffset c.start) (src.ruler.charOffset c.stop)) {ns : List Node}
    (h : Made.present (cs.map f) = .ok ns) :
    Node.Row (src.ruler.charOffset lo) (src.ruler.charOffset hi) ns := by
  rw [present_eq_concat, List.map_map] at h
  refine row_concat hrow (fun c hc ns hns => ?_) h
  obtain ⟨made, hmade, rfl⟩ := map_eq_ok.1 hns
  cases made with
  | none => exact Node.row_nil _ _
  | some n => exact (hf c hc n hmade).row

/-- Text from nodes in a row is laid between the octets of the row, also if there are no
nodes. -/
theorem laid_rawSpan {lo hi : Int} {cs : List Concrete} (hrow : InRow lo hi cs) {octet : Int}
    (hlo : lo ≤ octet) (hhi : octet ≤ hi) {n : Node}
    (h : src.rawSpan cs octet = .ok n) : Laid src lo hi [n] := by
  rw [Source.rawSpan] at h
  split at h
  · rename_i first last hfirst hlast
    obtain ⟨m, hm, rfl⟩ := Source.rawAt_eq_ok.1 h
    exact laid_leaf hm (hrow.1 first (List.mem_of_head? hfirst)).1
      (hrow.1 last (List.mem_of_getLast? hlast)).2.2
  · obtain ⟨m, hm, rfl⟩ := Source.emptyRaw_eq_ok.1 h
    exact laid_leaf hm hlo hhi

theorem laid_callMembers {c : Concrete} {lo hi : Int} {ds : List Concrete}
    (hrow : InRow lo hi ds)
    (hvalues : ∀ d ∈ ds, ∀ ns, values src d = .ok ns → Laid src d.start d.stop ns)
    {ns : List Node} (h : callMembers src c (ds.map fun d => ⟨d, values src d⟩) = .ok ns) :
    Laid src lo hi ns := by
  rcases callMembers_cases h with
    h | ⟨before, comma, after, members, operator, fallback, rfl, hmembers, hop, hfall, rfl⟩
  · exact laid_concat hrow hvalues h
  · obtain ⟨hlo, hle, hhi⟩ := hrow.1 comma (List.mem_append_right _ List.mem_cons_self)
    obtain ⟨hbefore, hafter⟩ := hrow.split
    have hlead := laid_concat hbefore (fun d hd => hvalues d (List.mem_append_left _ hd)) hmembers
    obtain ⟨m, hm, rfl⟩ := Source.leaf_eq_ok.1 hop
    have hcomma : Laid src comma.start comma.stop [.leaf m (.operator ",")] :=
      laid_leaf hm (Int.le_refl _) (Int.le_refl _)
    have hfallback : Laid src comma.stop hi [fallback] :=
      laid_rawSpan hafter (Int.le_refl _) hhi hfall
    exact hlead.append (hcomma.append hfallback hle hhi) hlo (Int.le_trans hle hhi)

/-- **Values are laid in their node.** -/
theorem laid_values (hnest : root.WellNested length) (c : Concrete) (hc : c ∈ root.walk)
    {ns : List Node} (h : values src c = .ok ns) : Laid src c.start c.stop ns := by
  have hbelow : ∀ ds : List Concrete, InRow c.start c.stop ds →
      (∀ d ∈ ds, sizeOf d < sizeOf c ∧ d ∈ root.walk) → ∀ ns, valuesOfAll src ds = .ok ns →
        Laid src c.start c.stop ns := by
    intro ds hrow hds ns hns
    refine laid_concat hrow (fun d hd ns hns => ?_) hns
    have := (hds d hd).1
    exact laid_values hnest d (hds d hd).2 hns
  rcases values_cases h with
    ⟨l, leaf, hleaf, rfl⟩ | ⟨-, h⟩ | ⟨m, g, members, hm, hmembers, rfl⟩
    | ⟨m, members, hm, hmembers, rfl⟩
  · obtain ⟨m, hm, rfl⟩ := Source.leaf_eq_ok.1 hleaf
    exact laid_leaf hm (Int.le_refl _) (Int.le_refl _)
  · -- an operation has no node of its own: its operands come out flat
    exact hbelow c.significant (hnest.significant hc)
      (fun d hd => ⟨sizeOf_lt_of_mem_significant hd, mem_walk_of_mem_significant hc hd⟩) ns h
  · exact laid_group hm <| hbelow c.inner (hnest.inner hc)
      (fun d hd => ⟨sizeOf_lt_of_mem_inner hd, mem_walk_of_mem_inner hc hd⟩) members hmembers
  · refine laid_group hm
      (laid_callMembers (hnest.callArguments hc) (fun d hd ns hns => ?_) hmembers)
    have := sizeOf_lt_of_mem_callArguments hd
    exact laid_values hnest d (mem_walk_of_mem_callArguments hc hd) hns
termination_by sizeOf c

theorem laid_valuesOfAll (hnest : root.WellNested length) {cs : List Concrete}
    (hcs : ∀ c ∈ cs, c ∈ root.walk) {lo hi : Int} (hrow : InRow lo hi cs) {ns : List Node}
    (h : valuesOfAll src cs = .ok ns) : Laid src lo hi ns :=
  laid_concat hrow (fun d hd _ hns => laid_values hnest d (hcs d hd) hns) h

theorem WellNested.valueStart (hnest : root.WellNested length) {c : Concrete}
    (hc : c ∈ root.walk) : c.start ≤ c.valueStart ∧ c.valueStart ≤ c.stop := by
  have hrange := hnest.range hc
  rw [Concrete.valueStart]
  cases hcolon : c.fromColon with
  | nil => exact ⟨hrange.2.1, Int.le_refl _⟩
  | cons colon rest =>
      have hmem : colon ∈ c.fromColon := hcolon ▸ List.mem_cons_self
      have hin := (hnest.significant hc).1 colon ((List.dropWhile_sublist _).subset hmem)
      exact ⟨Int.le_trans hin.1 hin.2.1, hin.2.2⟩

/-- A value made of nodes in a row is laid between octets around the row, and around the octet that
stands for it if there are no nodes. -/
theorem laid_valueNode (hnest : root.WellNested length) {cs : List Concrete}
    (hcs : ∀ c ∈ cs, c ∈ root.walk) {lo hi octet : Int} (hrow : InRow lo hi cs) (hlo : lo ≤ octet)
    (hhi : octet ≤ hi) {n : Node} (h : valueNode src cs octet = .ok n) : Laid src lo hi [n] := by
  obtain ⟨members, hmembers, m, hm, rfl⟩ := valueNode_eq_ok.1 h
  have hlaid : ∀ lo hi, InRow lo hi cs → Laid src lo hi members := fun lo hi hrow =>
    laid_valuesOfAll hnest hcs hrow hmembers
  rcases valueMark_cases hm with ⟨first, last, hfirst, hlast, hm⟩ | ⟨rfl, hm⟩
  · have hgroup : Laid src first.start last.stop [.group m .value members] :=
      laid_group hm (hlaid _ _ (hrow.tighten hfirst hlast))
    exact hgroup.mono (hrow.1 first (List.mem_of_head? hfirst)).1
      (hrow.1 last (List.mem_of_getLast? hlast)).2.2
  · have hgroup : Laid src octet octet [.group m .value members] :=
      laid_group hm (hlaid _ _ ⟨by simp, .nil⟩)
    exact hgroup.mono hlo hhi

/-- A declared value is laid between octets around its nodes and around the octet at which it can
begin. -/
theorem laid_declaredValue_of_row (hnest : root.WellNested length) {c : Concrete}
    (hc : c ∈ root.walk) {lo hi : Int} (hrow : InRow lo hi c.valueNodes) (hlo : lo ≤ c.valueStart)
    (hhi : c.valueStart ≤ hi) {n : Node} (h : declaredValue src c = .ok n) :
    Laid src lo hi [n] := by
  rw [declaredValue] at h
  split at h
  · exact laid_rawSpan hrow hlo hhi h
  · exact laid_valueNode hnest (fun d hd => mem_walk_of_mem_valueNodes hc hd) hrow hlo hhi h

/-- **A declared value is laid in its declaration.** -/
theorem laid_declaredValue (hnest : root.WellNested length) {c : Concrete} (hc : c ∈ root.walk)
    {n : Node} (h : declaredValue src c = .ok n) : Laid src c.start c.stop [n] :=
  laid_declaredValue_of_row hnest hc (hnest.valueNodes hc) (hnest.valueStart hc).1
    (hnest.valueStart hc).2 h

/-! ## Where a declaration ends -/

/-- No significant child but a semicolon reaches behind the end of a declaration. -/
theorem WellNested.stop_le_declarationStop (hnest : root.WellNested length) {c d : Concrete}
    (hc : c ∈ root.walk) (hd : d ∈ c.significant) (hkind : d.kind ≠ ";") :
    d.stop ≤ c.declarationStop := by
  have hrow := hnest.significant hc
  rw [declarationStop]
  cases hlast : c.significant.reverse.find? (·.kind != ";") with
  | none =>
      have hsemicolon := List.find?_eq_none.1 hlast d (List.mem_reverse.2 hd)
      exact absurd (bne_iff_ne.2 hkind) hsemicolon
  | some last =>
      obtain ⟨-, behind, before, hsplit, hall⟩ := List.find?_eq_some_iff_append.1 hlast
      -- read forwards, only semicolons stand behind the last of the other children
      have hforward : c.significant = before.reverse ++ last :: behind.reverse := by
        rw [← List.reverse_reverse c.significant, hsplit]
        simp
      rw [hforward] at hrow hd
      have hle := (hrow.1 last (by simp)).2.1
      rcases List.mem_append.1 hd with hd | hd
      · exact Int.le_trans (hrow.split.1.1 d hd).2.2 hle
      · rcases List.mem_cons.1 hd with rfl | hd
        · exact Int.le_refl _
        · have hsemicolon := hall d (List.mem_reverse.1 hd)
          simp [hkind] at hsemicolon

theorem WellNested.declarationStop (hnest : root.WellNested length) {c : Concrete}
    (hc : c ∈ root.walk) : c.start ≤ c.declarationStop ∧ c.declarationStop ≤ c.stop := by
  rw [Concrete.declarationStop]
  split
  · rename_i last hlast
    have hin := (hnest.significant hc).1 last (List.mem_reverse.1 (List.mem_of_find?_eq_some hlast))
    exact ⟨Int.le_trans hin.1 hin.2.1, hin.2.2⟩
  · exact ⟨(hnest.range hc).2.1, Int.le_refl _⟩

/-! ## Preludes of at-rules -/

theorem laid_preludeValues (hnest : root.WellNested length) {c : Concrete} (hc : c ∈ root.walk)
    {ns : List Node} (h : preludeValues src c = .ok ns) : Laid src c.start c.stop ns := by
  rw [preludeValues] at h
  split at h
  · simp only [bind_eq_ok, pure_eq_ok] at h
    obtain ⟨n, hn, rfl⟩ := h
    obtain ⟨m, hm, rfl⟩ := Source.leaf_eq_ok.1 hn
    exact laid_leaf hm (Int.le_refl _) (Int.le_refl _)
  · exact laid_values hnest c hc h

/-- **A prelude is laid** between octets around its nodes. -/
theorem laid_preludeNode (hnest : root.WellNested length) {cs : List Concrete}
    (hcs : ∀ c ∈ cs, c ∈ root.walk) {lo hi : Int} (hrow : InRow lo hi cs) {n : Node}
    (h : preludeNode src cs = .ok (some n)) : Laid src lo hi [n] := by
  rw [preludeNode] at h
  split at h
  · rename_i first last hfirst hlast
    simp only [bind_eq_ok, pure_eq_ok] at h
    obtain ⟨members, hmembers, m, hm, h⟩ := h
    obtain rfl := Option.some.inj h
    have hlaid := laid_concat (hrow.tighten hfirst hlast)
      (fun d hd ns hns => laid_preludeValues hnest (hcs d hd) hns) hmembers
    exact (laid_group hm hlaid).mono (hrow.1 first (List.mem_of_head? hfirst)).1
      (hrow.1 last (List.mem_of_getLast? hlast)).2.2
  · cases pure_eq_ok.1 h

end Concrete

end Stylesheet
