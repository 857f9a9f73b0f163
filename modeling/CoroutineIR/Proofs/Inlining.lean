import CoroutineIR.Proofs.Bypass
import CoroutineIR.Proofs.Expression
import CoroutineIR.Proofs.Settling
import CoroutineIR.Tree.Inlining

/-!
# Moving a definition into an operand

The search for a definition goes back along a straight part of the stream, so that control that
comes to the reader has come from the definition through nodes that neither write the variable
defined nor the variables the definition reads. Moving the definition takes it out of the stream,
and what is left is well structured again.
-/

namespace CoroutineIR

variable {n : NodeId}

open List Option CoroutineIR.Action Attempt Node Edit Operand

/-- Putting something that is no variable in the place of one releases the read. -/
theorem Edit.yields_fillArg {r : Routine} {i : Nat} {v : VarId} {reader : Node} {op : Operand}
    {post : Operand → Routine → Prop} (hlabel : r.label n = some reader)
    (harg : reader.args[i]? = some (.var v)) (hop : op.var? = none) (hreads : 0 < r.readsOf v)
    (hpost : ∀ r' : Routine, r'.Adds (r.alter n fun d => { d with args := d.args.set i op })
      [(v, .read)] → post (.var v) r') : Yields (replaceArg n i op) r post := by
  have hnode := Routine.node_of_label hlabel
  have hlt := Routine.lt_of_label hlabel
  have hpos : 0 < (r.alter n fun d => { d with args := d.args.set i op }).tally v .read := hreads
  have hgo : Yields (changeNode n fun d => { d with args := d.args.set i op }) r fun _ r' =>
      Yields (release v .read) r' fun _ r' => post (.var v) r' :=
    yields_changeNode.mpr ⟨hlt, yields_release hpos fun r' h => hpost r' h.adds⟩
  cases op with
  | var u => simp [var?] at hop
  | lit x | node m =>
    simp only [replaceArg, yields_bind, yields_pure, yields_node, hnode, exists_some_eq, harg]
    exact hgo

namespace Routine

variable {r r' : Routine} {exit m d b : NodeId} {t t' : Strand} {k : Nat}
    {ms : List NodeId} {v : VarId}

section Search

variable {p : Node → Bool}

/-- The variable that takes the result of a node. -/
def destOf (r : Routine) (n : NodeId) : Option VarId := (r.label n).bind Node.dest

theorem destOf_eq {e : Node} (h : r.label n = some e) : r.destOf n = e.dest := by
  rw [destOf, h, bind_some]

/-- Whether the node in a place of the arena satisfies `p`. -/
def isAt (r : Routine) (p : Node → Bool) (n : NodeId) : Bool := r.nodes[n]?.any p

/-- A search through operands finds what one of them contains. -/
theorem searchOperands_eq {search : NodeId → Query (Bool × List NodeId)} {args : List Operand}
    {inner : List (List NodeId)} {found : NodeId → Bool}
    (h : Forall₂ (fun m ms => ∃ tested, search m = .ok (ms.any found, tested))
      (args.filterMap node?) inner) :
    ∃ tested, searchOperands search args = .ok (inner.flatten.any found, tested) := by
  induction args generalizing inner with
  | nil =>
    obtain rfl := forall₂_nil_left_iff.mp h
    exact ⟨[], rfl⟩
  | cons arg args ih =>
    cases arg with
    | node m =>
      obtain ⟨ms, inner, ⟨tested, hm⟩, hrest, rfl⟩ := forall₂_cons_left_iff.mp h
      obtain ⟨more, hmore⟩ := ih hrest
      cases hany : ms.any found with
      | true =>
        exact ⟨tested, by simp [searchOperands, hm, hany]⟩
      | false =>
        exact ⟨tested ++ more, by simp [searchOperands, hm, hany, hmore]⟩
    | lit | var => exact ih h

/-- The search asks all nodes nested in a node. -/
theorem searchNestedWithin_eq (h : r.nestedWithin k n = .ok ms) :
    ∃ tested, r.searchNestedWithin p k n = .ok (ms.any (r.isAt p), tested) := by
  induction k generalizing n ms with
  | zero => simp [nestedWithin] at h
  | succ k ih =>
    obtain ⟨e, inner, he, hinner, rfl⟩ := nestedWithin_succ_eq_ok_iff.mp h
    have hself : r.isAt p n = p e := by simp [isAt, he]
    have hsearch :
        Forall₂ (fun m ms => ∃ tested, r.searchNestedWithin p k m = .ok (ms.any (r.isAt p), tested))
        (e.args.filterMap node?) inner := hinner.imp fun m ms hm => ih hm
    obtain ⟨tested, htested⟩ := searchOperands_eq hsearch
    cases hp : p e with
    | true =>
      exact ⟨[n], by simp [searchNestedWithin, node_eq_ok_iff.mpr he, hp, hself]⟩
    | false =>
      exact ⟨n :: tested, by
        simp [searchNestedWithin, node_eq_ok_iff.mpr he, hp, hself, htested]⟩

theorem anyNested_eq (h : r.nested n = .ok ms) : r.anyNested p n = .ok (ms.any (r.isAt p)) := by
  obtain ⟨tested, htested⟩ := searchNestedWithin_eq (p := p) h
  rw [nested] at h
  simp [anyNested, searchNested, htested]

theorem writtenBy_eq (h : r.nested n = .ok ms) :
    Tree.writtenBy r n = .ok (ms.filterMap r.destOf) := by
  have hdests :
      ms.mapM (fun m => return (← r.node m).dest) = (.ok (ms.map r.destOf) : Query _) := by
    refine mapM_eq_ok_map fun m hm => ?_
    obtain ⟨e, he⟩ := exists_label_of_nested h hm
    rw [node_eq_ok_iff.mpr (node_of_label he), destOf, he]
    rfl
  refine bind_eq_ok_iff.mpr ⟨ms, h, bind_eq_ok_iff.mpr ⟨_, hdests, ?_⟩⟩
  rw [filterMap_map]
  rfl

end Search

/-- The variables read by a node and by what is nested in it. -/
def inputs (r : Routine) (n : NodeId) : List VarId :=
  (n :: r.below n).flatMap fun m => (r.label m).elim [] fun e => e.args.filterMap Operand.var?

/-- Whether control may come to a node from elsewhere than from the nodes in front of it. -/
def isLandingAt (r : Routine) (n : NodeId) : Bool := (r.kindOf n).any NodeKind.isLanding

/-- A node that does not write `v` and leaves memory alone, whose result is among `assigned`. -/
structure Passes (r : Routine) (v : VarId) (assigned : List VarId) (b : NodeId) : Prop where
  plain : (r.kindOf b).any NodeKind.isPlain = true
  dest_ne : r.destOf b ≠ some v
  assigned : ∀ w, r.destOf b = some w → w ∈ assigned
  still : ∀ ms, r.nested b = .ok ms → ∀ m ∈ ms, (r.kindOf m).any NodeKind.blocksReordering = false

/-- Control comes to `c` from `a` alone, which is `d` or may be passed by a definition of `v`. -/
def Trails (r : Routine) (v : VarId) (assigned : List VarId) (d a c : NodeId) : Prop :=
  r.prevOf c = [a] ∧ r.isLandingAt c = false ∧ (a = d ∨ r.Passes v assigned a)

/-- Control that comes to a node has come from `d` through nodes that a definition of `v` may pass.
-/
abbrev ComesFrom (r : Routine) (v : VarId) (assigned : List VarId) (d n : NodeId) : Prop :=
  Relation.TransGen (r.Trails v assigned d) d n

/-- Whoever leads to a node is in front of it. -/
theorem Trails.back {assigned : List VarId} {a c : NodeId} (h : r.Trails v assigned d a c)
    (hr : r.Carries exit t) (hc : c ∈ r.live exit t) : a ∈ r.live exit t ∧
      (r.entry :: t.nodes ++ [exit]).idxOf a < (r.entry :: t.nodes ++ [exit]).idxOf c := by
  have ha : a ∈ r.prevOf c := by simp [h.1]
  have hmem : a ∈ r.live exit t := hr.prev_mem hc ha
  exact ⟨hmem, hr.idxOf_lt hmem (hr.mem_nextOf hc ha)⟩

/-- Going back along a trail stays in the stream. -/
theorem Carries.back_of_trails {assigned : List VarId} {a c : NodeId} (hr : r.Carries exit t)
    (h : Relation.ReflTransGen (r.Trails v assigned d) a c) (hc : c ∈ r.live exit t) : a ∈ r.live
    exit t ∧ (r.entry :: t.nodes ++ [exit]).idxOf a ≤ (r.entry :: t.nodes ++ [exit]).idxOf c := by
  induction h with
  | refl => exact ⟨hc, Nat.le_refl _⟩
  | tail _ hstep ih =>
    obtain ⟨hb, hlt⟩ := hstep.back hr hc
    exact (ih hb).imp_right fun hle => hle.trans hlt.le

/-- Control comes to a node of a trail from the one in front. -/
theorem Trails.eq_of_follow {assigned : List VarId} {a c : NodeId} {holds : Bool}
    (h : r.Trails v assigned d c b) (hr : r.WellStructured exit t) (ha : a ∈ r.live exit t)
    (hfollow : r.follow a holds = some b) : a = c := by
  obtain ⟨hprev, hlanding, -⟩ := h
  rcases hr.follow_cases ha hfollow with hnext | ⟨-, kind, hkind, hland⟩
  · have hmem := hr.mem_prevOf ha hnext
    rwa [hprev, mem_singleton] at hmem
  · rw [isLandingAt, hkind, any_some, hland] at hlanding
    cases hlanding

/-- A definition of `v` that reads none of the variables `assigned`. -/
structure Defines (r : Routine) (v : VarId) (assigned : List VarId) (d : NodeId)
    (e : Node) : Prop where
  label : r.label d = some e
  dest : e.dest = some v
  plain : e.kind.isPlain = true
  not_declaration : e.kind.isDeclaration = false
  not_finish : ∀ sig, e.kind ≠ .call .finish sig
  inputs : ∀ w ∈ r.inputs d, w ∉ assigned

/-- A node other than the entry has a node in front of it, and no other one if control cannot land
at it. -/
theorem Streams.exists_firstPrev (h : r.Streams exit t) (hn : n ∈ r.live exit t)
    (hentry : n ≠ r.entry) : ∃ b, (r.prevOf n).head? = some b ∧ b ∈ r.live exit t ∧
      (r.entry :: t.nodes ++ [exit]).idxOf b < (r.entry :: t.nodes ++ [exit]).idxOf n ∧
      (r.isLandingAt n = false → r.prevOf n = [b]) := by
  have hin : 0 < r.inDegree n ∧ (r.isLandingAt n = false → r.inDegree n = 1) := by
    rcases mem_cons.mp hn with rfl | hn'
    · exact absurd rfl hentry
    rcases mem_cons.mp hn' with rfl | hmem
    · rw [h.exit_degrees.1]
      exact ⟨Nat.one_pos, fun _ => rfl⟩
    · refine ⟨(h.sized.pos hmem).1,
        fun hlanding => (h.shaped.degrees hmem h.sized).1.resolve_right ?_⟩
      rintro ⟨o, hk⟩
      simp [isLandingAt, hk, NodeKind.isLanding] at hlanding
  obtain ⟨b, rest, hprev⟩ := exists_cons_of_length_pos hin.1
  have hb : b ∈ r.prevOf n := by simp [hprev]
  have hmem := h.prev_mem hn hb
  refine ⟨b, by rw [hprev, head?_cons], hmem, h.idxOf_lt hmem (h.mem_nextOf hn hb),
    fun hlanding => ?_⟩
  have hlength := hin.2 hlanding
  rw [inDegree, hprev, length_cons, Nat.add_eq_right, length_eq_zero_iff] at hlength
  rw [hprev, hlength]

theorem isBarrier_eq (kind : NodeKind) : Tree.isBarrier kind = !kind.isPlain := by
  cases kind <;> rfl

/-- A definition that is not pinned reads nothing that is assigned on the way. -/
theorem isPinned_eq {e : Node} (hms : r.nested n = .ok ms) (hplain : e.kind.isPlain = true)
    (evaluated assigned : List VarId) : ∃ pinned, Tree.isPinned r n e evaluated assigned =
    .ok pinned ∧ (pinned = false → e.kind.isDeclaration = false ∧
      (∀ sig, e.kind ≠ .call .finish sig) ∧ ∀ w ∈ r.inputs n, w ∉ assigned) := by
  have hrest : ∃ pinned, (do
      if ← Tree.writesAny r n evaluated then
        return true
      Tree.readsAny r n assigned : Query Bool) = .ok pinned ∧
          (pinned = false → ∀ w ∈ r.inputs n, w ∉ assigned) := by
    simp only [Tree.writesAny, Tree.readsAny, anyNested_eq hms, ok_bind]
    split
    · exact ⟨true, rfl, by simp⟩
    · refine ⟨_, rfl, fun hnone w hw hwa => ?_⟩
      obtain ⟨m, hm, hw⟩ := mem_flatMap.mp hw
      obtain rfl := Except.ok.inj (hms.symm.trans (nested_eq_below hms))
      obtain ⟨e', he'⟩ := exists_label_of_nested hms hm
      rw [he', elim_some] at hw
      have hat := List.any_eq_false.mp hnone m hm
      simp only [isAt, node_of_label he', any_some, List.any_eq_true, decide_eq_true_eq,
        not_exists, not_and] at hat
      exact hat w hw hwa
  obtain ⟨pinned, hpinned, hspec⟩ := hrest
  cases hk : e.kind with
  | declare role => exact ⟨true, by simp [Tree.isPinned, hk], by simp⟩
  | call form sig =>
    by_cases hform : form = .finish
    · subst hform
      exact ⟨true, by simp [Tree.isPinned, hk], by simp⟩
    · refine ⟨pinned, ?_, fun hfalse => ⟨rfl, fun sig' heq => ?_, hspec hfalse⟩⟩
      · rw [← hpinned]
        cases form <;> simp_all [Tree.isPinned]
      · cases heq
        exact hform rfl
  | yield | op =>
    exact ⟨pinned, by rw [← hpinned]; simp [Tree.isPinned, hk],
      fun hfalse => ⟨rfl, by simp, hspec hfalse⟩⟩
  | _ => simp [hk, NodeKind.isPlain] at hplain

/-- What the search finds. The variables written on the way are among `assigned` in the end. -/
theorem findDefinitionWithin_eq (hr : r.WellStructured exit t) {fuel : Nat} (hb : b ∈ r.live exit t)
    (hfuel : (r.entry :: t.nodes ++ [exit]).idxOf b < fuel) (evaluated assigned : List VarId) :
    ∃ found written, Tree.findDefinitionWithin r v evaluated fuel (some b) assigned =
    .ok (found, written) ∧
      assigned ⊆ written ∧ ∀ d, found = some d → d ∈ r.live exit t ∧
      (∃ e, r.Defines v written d e) ∧
        (b = d ∨ r.Passes v written b) ∧ Relation.ReflTransGen (r.Trails v written d) d b := by
  induction fuel generalizing b assigned with
  | zero => omega
  | succ fuel ih =>
    obtain ⟨e, he⟩ := hr.exists_node hb
    obtain ⟨ms, hms, -⟩ := hr.nestsDetached hb
    have hlabel := label_eq he
    have hdest : r.destOf b = e.dest := (destOf_eq hlabel).trans (unlinked_dest e)
    cases hplain : e.kind.isPlain with
    | false =>
      refine ⟨none, assigned, ?_, fun _ h => h, by simp⟩
      simp [Tree.findDefinitionWithin, node_eq_ok_iff.mpr he, isBarrier_eq, hplain]
    | true =>
    have hkind : r.kindOf b = some e.kind := kindOf_eq he
    have hlanding : r.isLandingAt b = false := by
      simp [isLandingAt, hkind, NodeKind.isPlain_landing hplain]
    have hentry : b ≠ r.entry := by
      rintro rfl
      obtain ⟨name, sig, suspends, hk⟩ := hr.entry_kind
      rw [some.inj (hkind.symm.trans hk)] at hplain
      simp [NodeKind.isPlain] at hplain
    obtain ⟨b', hhead, hb', hlt, hsole⟩ := hr.exists_firstPrev hb hentry
    have hprev : r.prevOf b = [b'] := hsole hlanding
    have hfirst : e.firstPrev = some b' := by rw [firstPrev, ← prevOf_eq he, hhead]
    by_cases hv : e.dest = some v
    · obtain ⟨pinned, hpinned, hspec⟩ := isPinned_eq hms hplain evaluated assigned
      refine ⟨if pinned then none else some b, assigned, ?_, fun _ h => h, fun d hd => ?_⟩
      · simp [Tree.findDefinitionWithin, node_eq_ok_iff.mpr he, isBarrier_eq, hplain, hv, hpinned]
      · cases hcase : pinned with
        | true => simp [hcase] at hd
        | false =>
          obtain rfl : b = d := by simpa [hcase] using hd
          obtain ⟨hdeclaration, hfinish, hinputs⟩ := hspec hcase
          exact ⟨hb, ⟨e.unlinked, hlabel, hv, hplain, hdeclaration, hfinish, hinputs⟩,
            Or.inl rfl, .refl⟩
    · -- the variables written at the node, as the search sees them
      obtain ⟨written, hmem, hgo⟩ : ∃ written : List VarId, (∀ w, e.dest = some w → w ∈ written) ∧
          Tree.findDefinitionWithin r v evaluated (fuel + 1) (some b) assigned =
            if v ∈ written then .ok (none, written ++ assigned)
            else if ms.any (r.isAt fun d => d.kind.blocksReordering) then .ok (none,
            written ++ assigned)
            else Tree.findDefinitionWithin r v evaluated fuel (some b') (written ++ assigned) := by
        cases hsome : e.dest with
        | none =>
          refine ⟨[], by simp, ?_⟩
          simp [Tree.findDefinitionWithin, node_eq_ok_iff.mpr he, isBarrier_eq,
            hplain, hsome, anyNested_eq hms, hfirst]
        | some w =>
          refine ⟨ms.filterMap r.destOf,
            fun w' hw' => mem_filterMap.mpr ⟨b, mem_nestedWithin hms, ?_⟩, ?_⟩
          · rw [hdest, hsome, hw']
          · simp only [Tree.findDefinitionWithin, node_eq_ok_iff.mpr he, ok_bind,
              isBarrier_eq, hplain, hsome, writtenBy_eq hms, anyNested_eq hms, pure_eq_ok,
              hfirst, isSome_some, if_true, Bool.not_true, Bool.false_eq_true, if_false, hsome ▸ hv]
      have hgrow : assigned ⊆ written ++ assigned := subset_append_right ..
      rw [hgo]
      split
      · exact ⟨none, _, rfl, hgrow, by simp⟩
      · split
        · exact ⟨none, _, rfl, hgrow, by simp⟩
        · rename_i hstill
          obtain ⟨found, all, hfind, hsub, hspec⟩ := ih hb' (by omega) (written ++ assigned)
          refine ⟨found, all, hfind, fun x hx => hsub (hgrow hx), fun d hd => ?_⟩
          obtain ⟨hdmem, hdefines, hb'', hpath⟩ := hspec d hd
          have hpasses : r.Passes v all b := by
            refine ⟨by simp [hkind, hplain], by rwa [hdest],
              fun w hw => ?_, fun ms' hms' m hm => ?_⟩
            · exact hsub (mem_append_left _ (hmem w (hdest ▸ hw)))
            · obtain rfl := Except.ok.inj (hms'.symm.trans hms)
              have hat := List.any_eq_false.mp (Bool.eq_false_iff.mpr hstill) m hm
              obtain ⟨e', he'⟩ := exists_label_of_nested hms hm
              simpa [isAt, node_of_label he', kindOf, he'] using hat
          exact ⟨hdmem, hdefines, Or.inr hpasses, hpath.tail ⟨hprev, hlanding, hb''⟩⟩

/-- The search starts in front of the reader. Whatever it finds leads to the reader if control
cannot land there. -/
theorem findDefinition_eq (hr : r.WellStructured exit t) (hn : n ∈ r.live exit t)
    (hentry : n ≠ r.entry) (v : VarId) (evaluated assigned : List VarId) :
    ∃ found written, Tree.findDefinition r n v evaluated assigned = .ok (found, written) ∧
      ∀ d, found = some d → d ∈ r.live exit t ∧ d ≠ n ∧ (∃ e, r.Defines v written d e) ∧
        (r.isLandingAt n = false → r.ComesFrom v written d n) := by
  obtain ⟨e, he⟩ := hr.exists_node hn
  obtain ⟨b, hhead, hb, hlt, hsole⟩ := hr.exists_firstPrev hn hentry
  have hfuel : (r.entry :: t.nodes ++ [exit]).idxOf b < r.walkFuel := by
    have hidx := idxOf_lt_length_of_mem (mem_layout hb)
    have hsize := hr.length_le_size
    have hwalk := r.size_lt_walkFuel
    have hlength : (r.entry :: t.nodes ++ [exit]).length = t.nodes.length + 2 := by simp
    omega
  obtain ⟨found, written, hfind, -, hspec⟩ :=
    findDefinitionWithin_eq (v := v) hr hb hfuel evaluated assigned
  refine ⟨found, written, ?_, fun d hd => ?_⟩
  · simp only [Tree.findDefinition, node_eq_ok_iff.mpr he, ok_bind, firstPrev,
      ← prevOf_eq he, hhead]
    exact hfind
  · obtain ⟨hdmem, hdefines, hpasses, hpath⟩ := hspec d hd
    refine ⟨hdmem, ?_, hdefines, fun hlanding => .tail' hpath ⟨hsole hlanding, hlanding, hpasses⟩⟩
    rintro rfl
    exact Nat.not_le_of_lt hlt (hr.back_of_trails hpath hb).2

/-- A routine whose sub-expressions leave variables alone. Nothing is evaluated where control may
land. -/
structure Treelike (r : Routine) (exit : NodeId) (t : Strand) :
    Prop extends r.WellStructured exit t where
  landings : ∀ n ∈ r.entry :: exit :: t.nodes, ∀ e, r.label n = some e →
    e.kind.isLanding = true → e.args = []
  silent : ∀ n ∈ r.entry :: exit :: t.nodes, ∀ m ∈ r.below n, r.destOf m = none

/-- The routine `r'` is `r` with the definition `d` of `v`, labelled `e`, moved into operand `i` of
the node `n`, labelled `reader`. The variables `assigned` are those that may be written on the way.
-/
structure Inlines (r r' : Routine) (exit : NodeId) (t t' : Strand) (n : NodeId) (i : Nat)
    (v : VarId) (d : NodeId) (reader e : Node) (assigned : List VarId) (p s : NodeId) : Prop where
  mem : n ∈ r.entry :: exit :: t.nodes
  label : r.label n = some reader
  arg : reader.args[i]? = some (.var v)
  once : r.readsOf v = 1
  ne : d ≠ n
  defines : r.Defines v assigned d e
  leads : r.isLandingAt n = false → r.ComesFrom v assigned d n
  bypasses : r.Bypasses r' exit t t' d p s
  labels : ∀ m, r'.label m = if m = d then some { e with dest := none }
    else if m = n then some { reader with args := reader.args.set i (Tree.replacement d e) }
    else r.label m
  mem_eq : r'.mem = r.mem
  vars : r'.vars.size = r.vars.size
  tally :
    ∀ u access, r.tally u access = r'.tally u access + [(v, .write), (v, .read)].count (u, access)

theorem SameStream.of_nodes (hnodes : r'.nodes = r.nodes) (hentry : r'.entry = r.entry) :
    r.SameStream r' := by
  refine ⟨by rw [hnodes], hentry, fun m => ?_, fun m => ?_, fun m => ?_⟩
  · rw [kindOf, kindOf, label, label, hnodes]
  · rw [Routine.nextOf, Routine.nextOf, hnodes]
  · rw [Routine.prevOf, Routine.prevOf, hnodes]

/-- What takes the place of the variable is a literal or the definition. -/
theorem replacement_cases (d : NodeId) (e : Node) : Tree.replacement d e = .node d ∨
    ∃ x, Tree.replacement d e = .lit x ∧ e.kind = .op .const ∧ e.args = [.lit x] := by
  unfold Tree.replacement
  split
  · rename_i x hkind hargs
    exact Or.inr ⟨x, rfl, hkind, hargs⟩
  · exact Or.inl rfl

variable {i : Nat} {reader e : Node} {assigned : List VarId} {p s : NodeId}

theorem Streams.mem_of_plain (h : r.Streams exit t) (hn : n ∈ r.live exit t) {kind : NodeKind}
    (hkind : r.kindOf n = some kind) (hplain : kind.isPlain = true) : n ∈ t.nodes := by
  refine h.mem_of_kindOf hn hkind fun _ _ _ _ =>
    ⟨?_, ?_⟩ <;> rintro rfl <;> simp [NodeKind.isPlain] at hplain

/-- Taking a node out of a stream that is the same but for operands and destinations. -/
theorem SameStream.exists_bypass (hsame : r.SameStream r') (hr : r.WellStructured exit t)
    (hd : d ∈ r.live exit t) {kind : NodeKind} (hkind : r.kindOf d = some kind)
    (hplain : kind.isPlain = true) : ∃ t' p s, r.Bypasses (r'.bypassed d p s) exit t t' d p s ∧
      ∀ post : PUnit → Routine → Prop, Yields (Edit.removeNode d) r' post ↔
      post () (r'.bypassed d p s) := by
  have hbranches : t.BranchesFit r'.kindOf [r'.entry] := by
    rw [show r'.kindOf = r.kindOf from funext hsame.kinds, hsame.entry]
    exact hr.branchesFit
  obtain ⟨t', p, s, hbypass, hyields⟩ := (hsame.streams hr.toStreams).exists_bypass hbranches
    (hr.mem_of_plain hd hkind hplain) ((hsame.kinds d).trans hkind) hplain
  exact ⟨t', p, s, hbypass.congr hsame (.refl _), hyields⟩

/-- The routine `r'` is `r` with the result of the node `d` dropped and the node taken out of the
stream. -/
structure Discards (r r' : Routine) (exit : NodeId) (t t' : Strand) (d : NodeId) (e : Node)
    (p s : NodeId) : Prop where
  bypasses : r.Bypasses r' exit t t' d p s
  labels : ∀ m, r'.label m = if m = d then some { e with dest := none } else r.label m
  mem_eq : r'.mem = r.mem
  vars : r'.vars.size = r.vars.size
  tally : ∀ u access,
    r.tally u access = r'.tally u access + (e.dest.toList.map (·, Access.write)).count (u, access)

/-- A definition leaves the stream, and its write is released. -/
theorem yields_discard (hr : r.WellStructured exit t) (hd : d ∈ r.live exit t)
    (he : r.label d = some e) (hplain : e.kind.isPlain = true)
    (hwritten : ∀ u, e.dest = some u → 0 < r.writesOf u) {post : PUnit → Routine → Prop}
    (hpost : ∀ r' t' p s, r.Discards r' exit t t' d e p s → post () r') :
    Yields (setDest d none) r fun _ r' => Yields (Edit.removeNode d) r' post := by
  refine yields_dropDest (node_of_label he) hwritten fun r₁ h₁ => ?_
  have hsame : r.SameStream (r₁.alter d ({ · with dest := none })) :=
    (SameStream.of_nodes h₁.nodes.symm h₁.entry.symm).trans
      (.alter d (fun _ => rfl) (fun _ => rfl) fun _ => rfl)
  have hlabel : ∀ m, (r₁.alter d ({ · with dest := none })).label m =
      if m = d then some { e with dest := none } else r.label m := by
    intro m
    rw [label_alter (g := ({ · with dest := none })) (fun _ => rfl), ← h₁.label_eq]
    split
    · rename_i heq
      rw [heq, he, map_some]
    · rfl
  have htally : ∀ u access, r.tally u access = (r₁.alter d ({ · with dest := none })).tally u
      access + (e.dest.toList.map (·, Access.write)).count (u, access) := h₁.tally_eq
  have hmem : (r₁.alter d ({ · with dest := none })).mem = r.mem := h₁.mem.symm
  have hvars : (r₁.alter d ({ · with dest := none })).vars.size = r.vars.size := h₁.size.symm
  generalize r₁.alter d ({ · with dest := none }) = r₂ at *
  obtain ⟨t', p, s, hbypass, hyields⟩ := hsame.exists_bypass hr hd (kindOf_of_label he rfl) hplain
  refine (hyields post).mpr (hpost _ t' p s ⟨hbypass, fun m => ?_, hmem, hvars, htally⟩)
  rw [label_bypassed, hlabel]

/-- Moving a definition succeeds. -/
theorem yields_inline (hr : r.WellStructured exit t) {w : Work} (hw : w.routine = r)
    (hn : n ∈ r.live exit t) (hreader : r.label n = some reader)
    (harg : reader.args[i]? = some (.var v)) (honce : r.readsOf v = 1) (hd : d ∈ r.live exit t)
    (hdn : d ≠ n) (hdefines : r.Defines v assigned d e) (hleads : r.isLandingAt n = false →
      r.ComesFrom v assigned d n) : Yields (Tree.inline n i d) w fun _ w' =>
    ∃ t' p s, r.Inlines w'.routine exit t t' n i v d reader e assigned p s := by
  have hwritten : ∀ u, e.dest = some u → 0 < r.writesOf u := by
    intro u hu
    have haccess : (u, Access.write) ∈ e.accesses := by
      have hdeclaration := hdefines.not_declaration
      cases hk : e.kind <;> simp_all [Node.accesses]
    exact hr.tally_pos hd hdefines.label haccess
  simp only [Tree.inline, yields_bind, Pass.yields_lift, yields_node, hw]
  refine ⟨_, node_of_label hdefines.label, ?_⟩
  refine yields_discard hr hd hdefines.label hdefines.plain hwritten fun r₁ t' p s h₁ => ?_
  have hreader' : r₁.label n = some reader := by rw [h₁.labels, if_neg hdn.symm, hreader]
  have hreads : 0 < r₁.readsOf v := by
    have hsum := h₁.tally v .read
    rw [hdefines.dest, toList_some, map_cons, map_nil, count_access, if_neg (by simp)] at hsum
    simp only [tally] at hsum
    omega
  have hop : (Tree.replacement d e).var? = none := by
    rcases replacement_cases d e with h | ⟨x, h, -⟩ <;> rw [h] <;> rfl
  refine yields_fillArg hreader' harg hop hreads fun r₂ h₂ =>
    Pass.yields_note.mpr ⟨t', p, s, ?_⟩
  have hset :
      r₁.SameStream (r₁.alter n fun x => { x with args := x.args.set i (Tree.replacement d e) }) :=
    .alter n (fun _ => rfl) (fun _ => rfl) fun _ => rfl
  have hsame : r₁.SameStream r₂ := hset.trans (.of_nodes h₂.nodes.symm h₂.entry.symm)
  exact {
    mem := hn
    label := hreader
    arg := harg
    once := honce
    ne := hdn
    defines := hdefines
    leads := hleads
    bypasses := h₁.bypasses.congr (.refl r) hsame
    labels := by
      intro m
      rw [← h₂.label_eq, label_alter (g := fun x =>
        { x with args := x.args.set i (Tree.replacement d e) }) (fun _ => rfl)]
      by_cases hm : m = n
      · subst hm
        rw [if_pos rfl, hreader', if_neg hdn.symm, if_pos rfl, map_some]
      · rw [if_neg hm, if_neg hm, h₁.labels]
    mem_eq := h₂.mem.symm.trans h₁.mem_eq
    vars := h₂.size.symm.trans h₁.vars
    tally := by
      intro u access
      have hsplit : [(v, Access.write), (v, Access.read)].count (u, access) =
          [(v, Access.write)].count (u, access) + [(v, Access.read)].count (u, access) := by
        rw [← count_append, singleton_append]
      rw [h₁.tally, hdefines.dest, show r₁.tally u access = _ from h₂.tally_eq u access, hsplit]
      simp only [toList_some, map_cons, map_nil]
      omega }

namespace Inlines

variable {before after : List Operand} {x : NodeId}

section

variable (h : r.Inlines r' exit t t' n i v d reader e assigned p s)
include h

theorem def_mem : d ∈ r.live exit t := h.bypasses.def_mem

theorem label_of_ne (hd : m ≠ d) (hn : m ≠ n) : r'.label m = r.label m := by
  rw [h.labels, if_neg hd, if_neg hn]

theorem label_def : r'.label d = some { e with dest := none } := by
  rw [h.labels, if_pos rfl]

theorem label_reader :
    r'.label n = some { reader with args := reader.args.set i (Tree.replacement d e) } := by
  rw [h.labels, if_neg h.ne.symm, if_pos rfl]

/-- The operands around the one that is replaced. -/
theorem exists_args : ∃ before after, reader.args = before ++ .var v :: after ∧
      reader.args.set i (Tree.replacement d e) = before ++ Tree.replacement d e :: after := by
  obtain ⟨hi, harg⟩ := List.getElem?_eq_some_iff.mp h.arg
  refine ⟨reader.args.take i, reader.args.drop (i + 1), ?_, set_eq_take_cons_drop _ hi⟩
  rw [← harg, getElem_cons_drop, take_append_drop]

/-- What is nested in a node that does not hold the reader stays. -/
theorem nested_of_not_mem (hms : r.nested m = .ok ms) (hnot : n ∉ ms) : r'.nested m = .ok ms := by
  refine nested_congr hms fun x hx => ?_
  rw [operandNodes, operandNodes]
  by_cases hxd : x = d
  · rw [hxd, h.label_def, h.defines.label]
    rfl
  · rw [h.label_of_ne hxd fun heq => hnot (heq ▸ hx)]

variable (hr : r.WellStructured exit t)
include hr

theorem nested_other (hm : m ∈ r.live exit t) (hne : m ≠ n) :
    r'.nested m = .ok (m :: r.below m) := by
  exact h.nested_of_not_mem (hr.nested_eq hm) (hr.not_mem_of_ne hm h.mem hne)

theorem below_other (hm : m ∈ r.live exit t) (hne : m ≠ n) : r'.below m = r.below m := by
  rw [below, h.nested_other hr hm hne]
  rfl

/-- The reader has the sub-expressions it had and the definition with its own. -/
theorem nested_reader (hargs : reader.args = before ++ .var v :: after)
    (hset : reader.args.set i (Tree.replacement d e) = before ++ Tree.replacement d e :: after) :
    r'.nested n =
    .ok (n :: (r.exprs before ++ r.exprs [Tree.replacement d e] ++ r.exprs after)) := by
  obtain ⟨hnested, hbelow⟩ := (nested_eq_ok_iff h.label).mp (hr.nested_eq h.mem)
  have hstays : ∀ m, .node m ∈ reader.args → r'.nested m = .ok (m :: r.below m) := by
    intro m hm
    obtain ⟨ms, hms⟩ := hnested m hm
    refine h.nested_of_not_mem (nested_eq_below hms) fun hn => ?_
    refine not_mem_nested (hr.nested_eq h.mem) ?_
    rw [(List.cons.inj hbelow).2]
    exact mem_exprs hm hn
  have hd' := h.nested_other hr h.def_mem h.ne
  have hstays' : ∀ m, .node m ∈ reader.args.set i (Tree.replacement d e) →
      r'.nested m = .ok (m :: r.below m) := by
    intro m hm
    rw [hset, mem_append, mem_cons] at hm
    rcases hm with hm | hm | hm
    · exact hstays m (by simp [hargs, hm])
    · rcases replacement_cases d e with hrep | ⟨x, hrep, -⟩
      · rw [hrep] at hm
        cases hm
        exact hd'
      · rw [hrep] at hm
        cases hm
    · exact hstays m (by simp [hargs, hm])
  refine (nested_eq_ok_iff h.label_reader).mpr ⟨fun m hm => ⟨_, hstays' m hm⟩, ?_⟩
  have hexprs : r'.exprs (reader.args.set i (Tree.replacement d e)) =
      r.exprs (reader.args.set i (Tree.replacement d e)) :=
    exprs_congr fun m hm => by rw [below, hstays' m hm]; rfl
  have hcons :
      r.exprs (Tree.replacement d e :: after) = r.exprs [Tree.replacement d e] ++ r.exprs after :=
    exprs_append [Tree.replacement d e] after
  rw [hexprs, hset, exprs_append, hcons, List.append_assoc]

theorem below_reader (hargs : reader.args = before ++ .var v :: after)
    (hset : reader.args.set i (Tree.replacement d e) = before ++ Tree.replacement d e :: after) :
    r'.below n = r.exprs before ++ r.exprs [Tree.replacement d e] ++ r.exprs after := by
  rw [below, h.nested_reader hr hargs hset]
  rfl

end

section

variable (h : r.Inlines r' exit t t' n i v d reader e assigned p s)
include h

variable (hr : r.WellStructured exit t)
include hr

/-- The nodes below those of the stream are neither the reader nor the definition. -/
theorem label_below (hm : m ∈ r.live exit t) (hx : x ∈ r.below m) : r'.label x = r.label x := by
  refine h.label_of_ne ?_ ?_
  · rintro rfl
    exact hr.not_mem_below hm h.def_mem hx
  · rintro rfl
    exact hr.not_mem_below hm h.mem hx

/-- Whatever stands below a node now did so before, or is the definition. -/
theorem below_cases (hm : m ∈ r'.live exit t') (hx : x ∈ r'.below m) :
    x = d ∨ ∃ k ∈ r.live exit t, x ∈ r.below k := by
  have hm' := h.bypasses.mem_old hm
  by_cases hmn : m = n
  · subst hmn
    obtain ⟨before, after, hargs, hset⟩ := h.exists_args
    have hbelow : r.below m = r.exprs before ++ r.exprs after := by
      rw [below_eq h.label (hr.nested_eq h.mem), hargs, exprs_append, exprs_var]
    rw [h.below_reader hr hargs hset, mem_append, mem_append] at hx
    rcases hx with (hx | hx) | hx
    · exact Or.inr ⟨m, h.mem, by simp [hbelow, hx]⟩
    · rcases replacement_cases d e with hrep | ⟨y, hrep, -⟩
      · rw [hrep, exprs_node, exprs_nil, append_nil, mem_cons] at hx
        exact hx.imp id fun hx => ⟨d, h.def_mem, hx⟩
      · simp [hrep] at hx
    · exact Or.inr ⟨m, h.mem, by simp [hbelow, hx]⟩
  · rw [h.below_other hr hm' hmn] at hx
    exact Or.inr ⟨m, hm', hx⟩

/-- What the nodes of the stream have changes at the reader, which takes over what the definition
has. -/
theorem flatMap_perm {α : Type} {f f' : NodeId → List α} {gone new : List α}
    (hother : ∀ m ∈ r.live exit t, m ≠ n → m ≠ d → f' m = f m)
    (hreader : (gone ++ f' n).Perm (new ++ (f d ++ f n))) :
    (gone ++ (r'.live exit t').flatMap f').Perm (new ++ (r.live exit t).flatMap f) := by
  have hn : n ∈ r'.live exit t' := h.bypasses.mem_new h.mem h.ne.symm
  have hstream : (r.live exit t).Perm (d :: n :: (r'.live exit t').erase n) := by
    refine Perm.trans ?_ ((perm_cons_erase hn).cons d)
    rw [live_congr h.bypasses.entry]
    exact ((h.bypasses.nodes.cons exit).cons r.entry).trans
      (((Perm.swap d exit _).cons r.entry).trans (Perm.swap d r.entry _))
  have hnodup : (n :: (r'.live exit t').erase n).Nodup :=
    (perm_cons_erase hn).nodup_iff.mp h.bypasses.streams.nodup
  have hrest : ((r'.live exit t').erase n).flatMap f' = ((r'.live exit t').erase n).flatMap f := by
    refine flatMap_congr fun m hm => ?_
    have hm' := mem_of_mem_erase hm
    refine hother m (h.bypasses.mem_old hm') ?_ (h.bypasses.ne_of_mem hr hm')
    rintro rfl
    exact (nodup_cons.mp hnodup).1 hm
  refine (((perm_cons_erase hn).flatMap_right f').append_left gone).trans ?_
  refine Perm.trans ?_ ((hstream.flatMap_right f).symm.append_left new)
  rw [flatMap_cons, flatMap_cons, flatMap_cons, hrest, ← List.append_assoc,
    ← List.append_assoc (f d), ← List.append_assoc new]
  exact hreader.append_right _

/-- The stream has the sub-expressions it had, and the definition unless a literal takes its place.
-/
theorem below_perm : ((r'.live exit t').flatMap r'.below).Perm
    ((Tree.replacement d e).node?.toList ++ (r.live exit t).flatMap r.below) := by
  rw [← nil_append ((r'.live exit t').flatMap r'.below)]
  refine h.flatMap_perm hr (fun m hm hmn _ => h.below_other hr hm hmn) ?_
  obtain ⟨before, after, hargs, hset⟩ := h.exists_args
  have hbelow : r.below n = r.exprs before ++ r.exprs after := by
    rw [below_eq h.label (hr.nested_eq h.mem), hargs, exprs_append, exprs_var]
  have hmoved :
      r.exprs [Tree.replacement d e] = (Tree.replacement d e).node?.toList ++ r.below d := by
    rcases replacement_cases d e with hrep | ⟨x, hrep, -, hlit⟩
    · rw [hrep, exprs_node, exprs_nil, append_nil]
      rfl
    · rw [hrep, below_eq h.defines.label (hr.nested_eq h.def_mem), hlit]
      rfl
  rw [nil_append, h.below_reader hr hargs hset, hbelow, hmoved]
  refine perm_iff_count.mpr fun a => ?_
  simp only [count_append]
  omega

/-- The accesses stay, but for those of the variable defined. -/
theorem accesses_perm : ([(v, Access.write), (v, .read)] ++
        (r'.live exit t').flatMap r'.accessesOf).Perm ((r.live exit t).flatMap r.accessesOf) := by
  have hdef : e.accesses = [(v, .write)] ++ (e.args.filterMap var?).map fun u =>
      (u, Access.read) := by
    have hdeclaration := h.defines.not_declaration
    rw [Node.accesses, h.defines.dest]
    cases hk : e.kind with
    | declare => simp [hk] at hdeclaration
    | _ => rfl
  -- what the definition reads is read by the sub-expression it becomes
  have hmoved : (Tree.replacement d e).node?.toList.flatMap r'.innerAccesses =
      (e.args.filterMap var?).map fun u => (u, Access.read) := by
    rcases replacement_cases d e with hrep | ⟨x, hrep, -, hlit⟩
    · rw [hrep]
      simp [innerAccesses, h.label_def, Node.accesses]
    · rw [hrep, hlit]
      rfl
  generalize (e.args.filterMap var?).map (fun u => (u, Access.read)) = reads at hdef hmoved
  have hstays := flatMap_innerAccesses_congr fun m hm x hx => h.label_below hr hm hx
  have hinner := (h.below_perm hr).flatMap_right r'.innerAccesses
  rw [flatMap_append, hmoved, hstays] at hinner
  have hop : (Tree.replacement d e).var? = none := by
    rcases replacement_cases d e with hrep | ⟨x, hrep, -⟩ <;> rw [hrep] <;> rfl
  have hown : ([(v, Access.write), (v, .read)] ++ reads ++ (r'.live exit t').flatMap fun m =>
      r'.accessesAt m m).Perm ([] ++ (r.live exit t).flatMap fun m => r.accessesAt m m) := by
    refine h.flatMap_perm hr
      (fun m _ hmn hmd => by rw [accessesAt, h.label_of_ne hmd hmn, accessesAt]) ?_
    rw [accessesAt_self h.label_reader, accessesAt_self h.defines.label,
      accessesAt_self h.label, hdef]
    refine perm_iff_count.mpr fun a => ?_
    have hcount := (accesses_set_perm h.arg hop).count_eq a
    simp only [count_append, count_cons, count_nil] at hcount ⊢
    omega
  refine perm_iff_count.mpr fun a => ?_
  have hown := hown.count_eq a
  have hinner := hinner.count_eq a
  rw [count_append, (r.flatMap_accessesOf_perm _).count_eq, (r'.flatMap_accessesOf_perm _).count_eq]
  simp only [count_append, count_nil] at hown hinner ⊢
  omega

/-- A definition inside its reader leaves the routine well structured. -/
theorem wellStructured : r'.WellStructured exit t' := by
  have hnested : ∀ m ∈ r'.live exit t', r'.nested m = .ok (m :: r'.below m) := by
    intro m hm
    by_cases hmn : m = n
    · subst hmn
      obtain ⟨before, after, hargs, hset⟩ := h.exists_args
      exact nested_eq_below (h.nested_reader hr hargs hset)
    · exact nested_eq_below (h.nested_other hr (h.bypasses.mem_old hm) hmn)
  have hargs : ∀ m, (r'.label m).map (fun e => e.args.length) = (r.label m).map fun e =>
      e.args.length := by
    intro m
    rw [h.labels]
    split
    · rename_i heq
      rw [heq, h.defines.label]
      rfl
    · split
      · rename_i heq
        rw [heq, h.label, map_some, map_some, length_set]
      · rfl
  have hkind : r.kindOf d = some e.kind := kindOf_of_label h.defines.label rfl
  have hnests : ∀ m ∈ r'.live exit t', r'.NestsDetached m := fun m hm =>
    nestsDetached_of_below (hnested m hm) fun x hx => by
      rcases h.below_cases hr hm hx with rfl | ⟨k, hk, hx⟩
      · exact h.bypasses.detached
      · exact h.bypasses.stays x (hr.below_detached hk hx).2
  refine h.bypasses.wellStructured hr hkind h.defines.plain hargs hnests
    (hr.accounted.counted_of_balance h.mem_eq (Nat.le_of_eq h.vars.symm) hnests fun u access => ?_)
  rw [← (h.accesses_perm hr).count_eq, count_append, h.tally u access]
  omega

omit hr

/-- What is left is such a routine again. -/
theorem treelike (hr : r.Treelike exit t) : r'.Treelike exit t' := by
  have hw := hr.toWellStructured
  refine ⟨h.wellStructured hw, fun m hm em hem hlanding => ?_, fun m hm x hx => ?_⟩
  · by_cases hmn : m = n
    · subst hmn
      obtain rfl := some.inj (h.label_reader.symm.trans hem)
      have hnone : reader.args = [] := hr.landings m h.mem reader h.label hlanding
      simp [hnone]
    · rw [h.label_of_ne (h.bypasses.ne_of_mem hw hm) hmn] at hem
      exact hr.landings m (h.bypasses.mem_old hm) em hem hlanding
  · rcases h.below_cases hw hm hx with rfl | ⟨k, hk, hx⟩
    · exact destOf_eq h.label_def
    · rw [destOf, h.label_below hw hk hx]
      exact hr.silent k hk x hx

/-- Nothing is evaluated where control may land, and so control does not land at a reader. -/
theorem not_landing (hr : r.Treelike exit t) : r.isLandingAt n = false := by
  rw [isLandingAt, kindOf, h.label, map_some, any_some, Bool.eq_false_iff]
  intro hlanding
  have harg := h.arg
  rw [hr.landings n h.mem reader h.label hlanding] at harg
  cases harg

end

end Inlines

end Routine

end CoroutineIR
