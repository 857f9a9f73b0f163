import CoroutineIR.Proofs.Expression
import CoroutineIR.Proofs.Finished

/-!
# The printed routine

A well-structured routine is printed as its statement tree. The outline of a strand lists what is
printed, line by line and with the number of regions around each line: one line for a node, one
where the second arm of a conditional begins and one where a region ends. Closing nodes are met on
the way, but have no line of their own.
-/

namespace CoroutineIR

open List Option Attempt Strand NodeKind

/-- What a printed line is about. -/
inductive Mark where
  | node (n : NodeId)
  /-- The second arm of a conditional begins. -/
  | divider (opener : NodeId)
  | closing (opener : NodeId)
deriving DecidableEq

/-- The text of a line, given those of the nodes. -/
def Mark.text (line : NodeId → String) : Mark → String
  | node n => line n
  | divider _ => "else"
  | closing _ => "end"

/-- A text stands somewhere in another one. -/
def Shows (whole part : String) : Prop := ∃ before behind, whole = before ++ part ++ behind

theorem Shows.trans {a b c : String} (hab : Shows a b) (hbc : Shows b c) : Shows a c := by
  obtain ⟨before, behind, rfl⟩ := hab
  obtain ⟨before', behind', rfl⟩ := hbc
  exact ⟨before ++ before', behind' ++ behind, by simp only [String.append_assoc]⟩

theorem Shows.behind {a b : String} (h : Shows a b) (before : String) : Shows (before ++ a) b :=
  Shows.trans ⟨before, "", by simp⟩ h

/-- What is joined is shown. -/
theorem shows_intercalate {separator s : String} {l : List String} (h : s ∈ l) :
    Shows (separator.intercalate l) s := by
  obtain ⟨l, l', rfl⟩ := append_of_mem h
  have hhead : Shows (separator.intercalate (s :: l')) s := by
    cases l' with
    | nil => exact ⟨"", "", by simp⟩
    | cons s' l' =>
      exact ⟨"", separator ++ separator.intercalate (s' :: l'), by simp [String.append_assoc]⟩
  cases l with
  | nil => exact hhead
  | cons s' l =>
    rw [String.intercalate_append_of_ne_nil (by simp) (by simp)]
    exact hhead.behind _

namespace Strand

/-- What is printed for a strand with `depth` regions around it. -/
def outline (depth : Nat) : Strand → List (Nat × Mark)
  | done => []
  | leaf n rest => (depth, .node n) :: rest.outline depth
  | region o _ body rest =>
    (depth, .node o) :: body.outline (depth + 1) ++ (depth, .closing o) :: rest.outline depth
  | fork o _ first second rest =>
    (depth, .node o) :: first.outline (depth + 1) ++
      (depth, .divider o) :: second.outline (depth + 1) ++ (depth, .closing o) :: rest.outline depth

end Strand

namespace Routine

variable {r : Routine} {exit n m : NodeId} {t : Strand} {ms : List NodeId} {d : Node} {k : Nat}

/-- The line of a node, if it can be printed. -/
def line (r : Routine) (n : NodeId) : String := (r.nodeLine n).toOption.getD ""

/-- The lines that a node asks for: a closing node none, any other node its own, a conditional with
two successors one between its arms, and a node that opens a region one at the end. -/
def marks (r : Routine) (n : NodeId) : List Mark :=
  (r.kindOf n).elim [] fun kind =>
    if kind.isClose then []
    else .node n :: (if kind.isCond && r.outDegree n = 2 then [.divider n] else []) ++
      if kind.region?.isSome then [.closing n] else []

/-- What a node names is there: the variable it writes to and the step it jumps to. -/
structure Legible (r : Routine) (d : Node) : Prop where
  dest : ∀ v, d.dest = some v → v < r.vars.size
  jump : ∀ guarded m, d.kind = .goto guarded (.step m) → m < r.nodes.size

/-- An operand as it is printed. -/
def shown (r : Routine) : Operand → String
  | .lit value => value.text
  | .var v => (r.vars[v]?.map Variable.name).getD ""
  | .node m => "(" ++ r.line m ++ ")"

theorem Legible.exists_jumpText (h : r.Legible d) {guarded : Bool} {jump : Jump}
    (hkind : d.kind = .goto guarded jump) : ∃ s, r.jumpText jump = .ok s := by
  cases jump with
  | pending | terminal => exact ⟨_, rfl⟩
  | step m =>
    have hm := node_eq_ok_iff.mpr (Array.getElem?_eq_getElem (h.jump guarded m hkind))
    rw [jumpText, hm]
    simp only [ok_bind]
    split <;> exact ⟨_, rfl⟩

/-- Around its operands a node is printed without looking at sub-expressions. -/
theorem Legible.exists_front (h : r.Legible d) (hd : r.nodes[n]? = some d) :
    ∃ dest label : String, ∀ k args, d.args.mapM (r.operandText (r.nodeTextWithin k)) = .ok args →
      let tail := args ++ (d.kind.branch?.toList.map fun b => toString b.depth)
      r.nodeTextWithin (k + 1) n =
        .ok (dest ++ d.kind.mnemonic ++ label ++ (if tail.isEmpty then "" else " ") ++
        String.intercalate ", " tail) := by
  obtain ⟨label, hlabel⟩ : ∃ label, r.labelText d = .ok label := by
    unfold labelText
    split
    case h_3 guarded jump hkind =>
      obtain ⟨s, hs⟩ := h.exists_jumpText hkind
      exact ⟨" " ++ s, by rw [hs]; rfl⟩
    all_goals exact ⟨_, rfl⟩
  cases hv : d.dest with
  | none =>
    refine ⟨"", label, fun k args hargs => ?_⟩
    simp only [nodeTextWithin, node_eq_ok_iff.mpr hd, hv, hargs, hlabel, ok_bind, pure_eq_ok]
  | some v =>
    obtain ⟨x, hvar⟩ : ∃ x, r.var v = .ok x :=
      ⟨_, var_eq_ok_iff.mpr (Array.getElem?_eq_getElem (h.dest v hv))⟩
    refine ⟨x.name ++ " = ", label, fun k args hargs => ?_⟩
    simp only [nodeTextWithin, node_eq_ok_iff.mpr hd, hv, hvar, hargs, hlabel, ok_bind, pure_eq_ok]

/-- The line of a node whose expression can be listed: more fuel does not change it, and the lines
of its sub-expressions stand in it, each in parentheses. -/
theorem nodeTextWithin_eq (h : r.nestedWithin k n = .ok ms) (hk : k ≤ r.nestFuel)
    (hlegible : ∀ m ∈ n :: r.below n, ∀ d, r.label m = some d → r.Legible d ∧ ∀ v, .var v ∈ d.args →
      v < r.vars.size) : (∀ m ∈ n :: r.below n, ∀ k' ≥ k, r.nodeTextWithin k' m = .ok (r.line m)) ∧
      ∀ m ∈ r.below n, Shows (r.line n) ("(" ++ r.line m ++ ")") := by
  induction k generalizing n ms with
  | zero => cases h
  | succ k ih =>
    obtain ⟨d, inner, hd, -⟩ := nestedWithin_succ_eq_ok_iff.mp h
    have hbelow : r.below n = r.exprs d.args :=
      below_eq (d := d.unlinked) (label_eq hd) (nested_of_nestedWithin h)
    rw [hbelow] at hlegible ⊢
    obtain ⟨hlegible', hvars⟩ := hlegible n (by simp) _ (label_eq hd)
    have hpart {m : NodeId} (hm : .node m ∈ d.args) :=
        (nestedWithin_arg h (label_eq hd) hm).elim fun _ hnested =>
      ih hnested.1 (by omega) fun x hx => hlegible x (mem_cons_of_mem _ (mem_exprs hm hx))
    have hargs :
        ∀ k' ≥ k, d.args.mapM (r.operandText (r.nodeTextWithin k')) = .ok (d.args.map r.shown) := by
      intro k' hk'
      refine mapM_eq_ok_map fun arg harg => ?_
      cases arg with
      | lit => rfl
      | var v =>
        have hv := Array.getElem?_eq_getElem (hvars v harg)
        simp [operandText, shown, hv, var_eq_ok_iff.mpr hv]
      | node m =>
        simp [operandText, shown, (hpart harg).1 m (by simp) k' hk']
    obtain ⟨dest, label, hfront⟩ :=
      Legible.exists_front (d := d) ⟨hlegible'.dest, hlegible'.jump⟩ hd
    have hline :=
      congrArg (fun s => s.toOption.getD "") (hfront _ _ (hargs _ (Nat.le_of_succ_le_succ hk)))
    change r.line n = _ at hline
    have hshows {m : NodeId} (hm : .node m ∈ d.args) :
        Shows (r.line n) ("(" ++ r.line m ++ ")") := by
      rw [hline]
      exact (shows_intercalate (mem_append_left _ (List.mem_map_of_mem hm))).behind _
    refine ⟨fun m hm k' hk' => ?_, fun m hm => ?_⟩
    · obtain _ | k' := k'
      · omega
      rcases mem_cons.mp hm with rfl | hm
      · rw [hfront k' _ (hargs k' (by omega)), hline]
        rfl
      · obtain ⟨x, hx, _, hm, rfl⟩ := exists_mem_exprs.mp ⟨m, hm, rfl⟩
        exact (hpart hx).1 m hm (k' + 1) (by omega)
    · obtain ⟨x, hx, _, hm, rfl⟩ := exists_mem_exprs.mp ⟨m, hm, rfl⟩
      rcases mem_cons.mp hm with rfl | hm
      · exact hshows hx
      · exact (hshows hx).trans (.trans ⟨"(", ")", rfl⟩ ((hpart hx).2 m hm))

/-- The walk that prints lists the outline of the strand it walks along. It turns back at the first
closing node, wherever the strand leads to. -/
theorem strainLines_eq {src dst : Port} (h : r.Lays src t dst) (hshaped : t.Shaped r.kindOf)
    (hdst : dst.1 ∉ t.nodes) (hnodup : t.nodes.Nodup) (fuel : Nat) (hfuel : t.nodes.length < fuel)
    (hlines : ∀ n ∈ t.nodes, r.nodeLine n = .ok (r.line n)) {e : Node} {o : NodeId}
    (he : r.nodes[dst.1]? = some e) (hclose : e.kind = .close o) (depth : Nat) :
    r.strainLines fuel depth (some (t.entryPort dst).1) =
    .ok ((t.outline depth).map fun p => ⟨p.1, p.2.text r.line⟩) := by
  refine h.walk_induction (motive := fun fuel dst t =>
    (∀ n ∈ t.nodes, r.nodeLine n = .ok (r.line n)) →
    ∀ e o, r.nodes[dst.1]? = some e → e.kind = .close o →
    ∀ depth, r.strainLines fuel depth (some (t.entryPort dst).1) =
      .ok ((t.outline depth).map fun p => ⟨p.1, p.2.text r.line⟩))
    (fun fuel dst _ e o he hclose depth => ?_)
    (fun hnode _ hregion hopen hfirst hwalk hlines e o he hclose depth => ?_)
    (fun hnode _ hkind hnext hend hekind hfirst hinner hbehind hlines e o he hclose depth => ?_)
    (fun hnode _ hkind hnext hend hekind hfirst hthen helse hbehind hlines e o he hclose depth =>
    ?_) hshaped hdst hnodup fuel hfuel hlines e o he hclose depth
  · simp [strainLines, Strand.outline, node_eq_ok_iff.mpr he, hclose, isClose]
  · obtain ⟨hline, hrest⟩ := forall_leaf.mp hlines
    simp only [entryPort_leaf, strainLines, node_eq_ok_iff.mpr hnode, hopen, hregion, hline,
      hfirst, hwalk hrest _ _ he hclose, ok_bind, pure_eq_ok]
    rfl
  · obtain ⟨hline, hbody, -, hrest⟩ := forall_region.mp hlines
    have hinside := hinner hbody _ _ hend hekind (depth + 1)
    simp only [entryPort_region, strainLines, node_eq_ok_iff.mpr hnode, hkind,
      isClose, region?, hline,
      Node.firstNext, hnext, head?_cons, hinside, node_eq_ok_iff.mpr hend, ok_bind,
      pure_eq_ok]
    rw [← Node.firstNext, hfirst, hbehind hrest _ _ he hclose]
    simp [Strand.outline, Mark.text]
  · obtain ⟨hline, hbody, hsecond, -, hrest⟩ := forall_fork.mp hlines
    have hfirstArm := hthen hbody _ _ hend hekind (depth + 1)
    have hsecondArm := helse hsecond _ _ hend hekind (depth + 1)
    simp only [entryPort_fork, strainLines, node_eq_ok_iff.mpr hnode, hkind, isClose, region?,
      isCond, hline, Node.firstNext, hnext, head?_cons, hfirstArm, hsecondArm,
      node_eq_ok_iff.mpr hend, ok_bind, pure_eq_ok, getElem?_cons_succ, getElem?_cons_zero]
    rw [← Node.firstNext, hfirst, hbehind hrest _ _ he hclose]
    simp [Strand.outline, Mark.text]

/-- The lines of an outline are those its nodes ask for. -/
theorem outline_perm (hshaped : t.Shaped r.kindOf) (hsized : t.Sized r.inDegree r.outDegree)
    (depth : Nat) : ((t.outline depth).map Prod.snd).Perm (t.nodes.flatMap r.marks) := by
  induction t generalizing depth with
  | done => exact .refl _
  | leaf n rest ih =>
    obtain ⟨⟨kind, hkind, hregion, hopen⟩, hrest⟩ := hshaped
    have hcond : kind.isCond = false := by cases kind <;>
      simp_all [isCond, region?]
    have hmarks : r.marks n = [.node n] := by simp [marks, hkind, hopen, hregion, hcond]
    simpa [Strand.outline, Strand.nodes, hmarks] using ih hrest hsized.2 depth
  | region o c body rest ihb ihr =>
    obtain ⟨⟨form, suspends, hopen⟩, hclose, hbody, hrest⟩ := hshaped
    obtain ⟨⟨-, hout⟩, -, hsbody, hsrest⟩ := hsized
    have hmarks : r.marks o = [.node o, .closing o] := by
      simp [marks, hopen, hout, isClose, region?]
    have hnone : r.marks c = [] := by simp [marks, hclose, isClose]
    refine perm_iff_count.mpr fun mark => ?_
    have hb := (ihb hbody hsbody (depth + 1)).count_eq mark
    have hr := (ihr hrest hsrest depth).count_eq mark
    simp [Strand.outline, Strand.nodes, hmarks, hnone, count_cons, hb, hr]
    omega
  | fork o c first second rest iha ihb ihr =>
    obtain ⟨⟨suspends, hopen⟩, hclose, hfirst, hsecond, hrest⟩ := hshaped
    obtain ⟨⟨-, hout⟩, -, hsfirst, hssecond, hsrest⟩ := hsized
    have hmarks : r.marks o = [.node o, .divider o, .closing o] := by
      simp [marks, hopen, hout, isClose, isCond, region?]
    have hnone : r.marks c = [] := by simp [marks, hclose, isClose]
    refine perm_iff_count.mpr fun mark => ?_
    have ha := (iha hfirst hsfirst (depth + 1)).count_eq mark
    have hb := (ihb hsecond hssecond (depth + 1)).count_eq mark
    have hr := (ihr hrest hsrest depth).count_eq mark
    simp [Strand.outline, Strand.nodes, hmarks, hnone, count_cons, ha, hb, hr]
    omega

/-- A routine is printed as one region around its body. -/
theorem WellStructured.lines_eq (h : r.WellStructured exit t)
    (hlines : ∀ n ∈ r.live exit t, r.nodeLine n = .ok (r.line n)) : r.lines =
    .ok (((Strand.region r.entry exit t .done).outline 0).map fun p => ⟨p.1, p.2.text r.line⟩) := by
  obtain ⟨name, sig, suspends, hdefine⟩ := h.entry_kind
  obtain ⟨d, hd, hkind, hnext, -⟩ := node_of_kindOf hdefine
  obtain ⟨e, he, hclose, hnone, -⟩ := node_of_kindOf h.exit_kind
  have hfuel := h.length_le_size
  have hsize := r.size_lt_walkFuel
  obtain ⟨fuel, hwalk⟩ : ∃ fuel, r.walkFuel = fuel + 2 := ⟨r.walkFuel - 2, by omega⟩
  have hbody := strainLines_eq h.toLays h.shaped h.exit_not_mem h.nodup_nodes (fuel + 1) (by omega)
    (fun n hn => hlines n (by simp [hn])) he hclose 1
  have hnext : d.firstNext = some (t.entryPort (exit, 0)).1 := by
    simp [Node.firstNext, hnext, h.nextOf_entry]
  have hnone : e.firstNext = none := by
    have hout := h.exit_degrees.2
    rw [outDegree, length_eq_zero_iff] at hout
    simp [Node.firstNext, hnone, hout]
  rw [lines, hwalk, strainLines]
  simp only [node_eq_ok_iff.mpr hd, hkind, isClose, region?, isCond,
    hlines r.entry (by simp), hnext, hbody,
    node_eq_ok_iff.mpr he, hnone, strainLines, ok_bind, pure_eq_ok]
  simp [Strand.outline, Mark.text]

/-- A well-structured routine can be printed, and what is printed is its outline as one region, each
line with four spaces for every region around it. The lines are exactly those that the live nodes
ask for, and in the line of a live node stand those of its sub-expressions. -/
theorem text_eq_outline (h : r.WellStructured exit t)
    (hlegible : ∀ n ∈ r.live exit t, ∀ m ∈ n :: r.below n, ∀ d, r.label m = some d → r.Legible d) :
    ∃ live, r.liveNodes = .ok live ∧
      r.text = .ok (String.join (((Strand.region r.entry exit t .done).outline 0).map fun p =>
        String.join (List.replicate p.1 "    ") ++ p.2.text r.line ++ "\n")) ∧
      (((Strand.region r.entry exit t .done).outline 0).map Prod.snd).Perm (live.flatMap r.marks) ∧
      ∀ n ∈ live, r.nested n = .ok (n :: r.below n) ∧
        (∀ m ∈ n :: r.below n, r.nodeLine m = .ok (r.line m)) ∧
        ∀ m ∈ r.below n, Shows (r.line n) ("(" ++ r.line m ++ ")") := by
  obtain ⟨live, hlive, hperm⟩ := h.liveNodes_eq
  have hvars {n m : NodeId} {d : Node} {v : VarId} (hn : n ∈ r.live exit t) (hm : m ∈ n ::
      r.below n) (hd : r.label m = some d) (hv : .var v ∈ d.args) : v < r.vars.size := by
    have haccess : (v, Access.read) ∈ r.accessesOf n :=
      mem_flatMap.mpr ⟨m, hm, by simp [accessesAt, hd, Node.mem_accesses_of_arg hv]⟩
    exact h.lt_of_access (mem_flatMap.mpr ⟨n, hn, haccess⟩)
  have htexts {n : NodeId} (hn : n ∈ r.live exit t) :=
    nodeTextWithin_eq (h.nested_eq hn) (Nat.le_refl _)
    fun m hm d hd => ⟨hlegible n hn m hm d hd, fun v => hvars hn hm hd⟩
  have hlines {n m : NodeId} (hn : n ∈ r.live exit t) (hm : m ∈ n :: r.below n) :
      r.nodeLine m = .ok (r.line m) :=
    (htexts hn).1 m hm _ (Nat.le_refl _)
  refine ⟨live, hlive, ?_, ?_, fun n hn => ?_⟩
  · rw [text, h.lines_eq fun n hn => hlines hn mem_cons_self]
    simp [Line.render, Function.comp_def]
  · refine .trans ?_ (hperm.flatMap_right r.marks).symm
    obtain ⟨name, sig, suspends, hdefine⟩ := h.entry_kind
    have hmarks : r.marks r.entry = [.node r.entry, .closing r.entry] := by
      simp [marks, hdefine, isClose, isCond, region?]
    have hnone : r.marks exit = [] := by simp [marks, h.exit_kind, isClose]
    refine perm_iff_count.mpr fun mark => ?_
    have hbody := (outline_perm h.shaped h.sized 1).count_eq mark
    simp [Strand.outline, hmarks, hnone, count_cons, hbody]
  · have hn := hperm.mem_iff.mp hn
    exact ⟨h.nested_eq hn, fun m hm => hlines hn hm, (htexts hn).2⟩

/-- A block around a conditional whose first arm is empty. -/
theorem text_eq_outline_empty_arm :
    let calls : List Instruction :=
      [.declare .param (.scalar .i32) "a" false, .block, .cond (.var 1), .otherwise,
        .yieldNow, .close, .close]
    let printed :=
      "define main () => ()\n    a = decl_param i32\n    block\n        if a\n        else\n" ++
      "            yield\n        end\n    end\nend\n"
    ∃ r b' t live, Build.finish (Build.play default calls (Build.define "main" default)).1 =
      .ok r b' ∧ r.WellStructured 1 t ∧ r.text = .ok printed ∧ r.liveNodes = .ok live ∧
      (((Strand.region r.entry 1 t .done).outline 0).map Prod.snd).Perm (live.flatMap r.marks) := by
  intro calls printed
  obtain ⟨r, b', -, hfinish, hbuilt, -, htext, hdests⟩ :=
    Build.exists_main calls (by decide)
    (fun r => r.text.toOption = some printed ∧
    ∀ d ∈ r.nodes.toList, ∀ v ∈ d.dest.toList, v < r.vars.size) (by decide +kernel)
  obtain ⟨t, ht, -, hfresh⟩ := hbuilt.wellStructured
  obtain ⟨live, hlive, hprinted, hperm, -⟩ := text_eq_outline ht fun n _ m _ d hd => by
    refine ⟨fun v hv => ?_, fun guarded k hkind => ?_⟩
    · obtain ⟨e, he, rfl⟩ := map_eq_some_iff.mp hd
      exact hdests e (Array.mem_toList_iff.mpr (Array.mem_of_getElem? he)) v (mem_toList.mpr hv)
    · have hplain := (hfresh m d hd).plain
      simp [hkind, isLowered] at hplain
  refine ⟨r, b', t, live, hfinish, ht, ?_, hlive, hperm⟩
  rw [hprinted] at htext ⊢
  exact congrArg Except.ok (some.inj htext)

end Routine

end CoroutineIR
