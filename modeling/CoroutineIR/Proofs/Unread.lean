import CoroutineIR.Proofs.Retiring

/-!
# The sweep over definitions nobody reads

The sweep goes against the direction of control and visits every node once, the second arm of a
conditional before the first one. It changes nothing in front of the node it visits, so that the
nodes that are still to come are found where they stood before. What it does with a node is decided
by the counts, and leaves the stream intact.
-/

namespace CoroutineIR

variable {e : Node}

open List Option CoroutineIR.Action Attempt Node Edit

/-- The accesses of a node that is no declaration. -/
theorem Node.accesses_of_not_declaration (h : e.kind.isDeclaration = false) :
    e.accesses = e.dest.toList.map (·, .write) ++ (e.args.filterMap Operand.var?).map fun v =>
    (v, Access.read) := by
  unfold Node.accesses
  cases hkind : e.kind with
  | declare role =>
    rw [hkind] at h
    cases h
  | define | enter | close | branch | call | ret | yield | step | goto | op => cases e.dest <;> rfl

/-- The same node with another destination is as it is made again. -/
theorem Node.Proper.withDest {new : Option VarId} (h : e.Proper)
    (hnodecl : e.kind.isDeclaration = false) (hdest : e.dest.isSome = true) :
    ({ e with dest := new } : Node).Proper where
  plain := h.plain
  result := fun _ => h.result hdest
  bracket := h.bracket
  storage := fun hkind => by
    rw [show e.kind = _ from hkind] at hnodecl
    cases hnodecl

namespace DeadCode

open Routine

variable {r r' : Routine} {exit n : NodeId} {t : Strand} {source dest v : VarId}
    {new : Option VarId} {w : Work}

/-- What the sweep may find about a node that accesses what `e` says, and what it then does with the
node. -/
inductive Judged (r : Routine) (n : NodeId) (e : Node) : Verdict → Prop
  | keep (h : ∀ opener, e.kind = .close opener → (r.prevOf n)[1]? = none) : Judged r n e .keep
  | dropResult {v : VarId} (hkind : e.kind.isPlainCall = true) (hdest : e.dest = some v)
    (hreads : r.readsOf v = 0) : Judged r n e .dropResult
  | descend {last opener : NodeId} (hkind : e.kind = .close opener)
    (hprev : (r.prevOf n)[1]? = some last) : Judged r n e (.descend last opener)
  | unlink {v : VarId} (hkind : e.kind = .declare .storage) (hdest : e.dest = some v)
    (hreads : r.readsOf v = 0) (hwrites : r.writesOf v = 0) : Judged r n e .unlink
  | rename {source dest : VarId} (hkind : e.kind = .op .copy) (hargs : e.args = [.var source])
    (hdest : e.dest = some dest)
    (honce : r.writesOf source = 1 ∧ r.readsOf source = 1 ∧ r.addressableAt source = false)
    (hwrites : r.writesOf dest = 1) : Judged r n e (.rename source dest)
  | toConst {value : Literal} (hkind : e.kind = .op .copy) (hargs : e.args = [.lit value])
    (hnumeric : value.isNumeric = true) : Judged r n e .toConst
  | remove {v : VarId} (hkind : e.kind.isPlain = true) (hnot : e.kind.isCall = false ∧
    e.kind.isDeclaration = false)
    (hdest : e.dest = some v) (hreads : r.readsOf v = 0) : Judged r n e .remove

theorem judged_keep {kind : NodeKind} (hkind : e.kind = kind) (h : ∀ opener, kind ≠ .close opener) :
    Judged r n e .keep :=
  .keep fun opener hclose => absurd (hkind.symm.trans hclose) (h opener)

/-- The verdict on a copy between variables. -/
theorem exists_judgeCopy (hkind : e.kind = .op .copy) (hargs : e.args = [.var source])
    (hdest : e.dest = some dest) (hsource : source < r.vars.size) (hlt : dest < r.vars.size) :
    ∃ verdict, judgeCopy r source dest = .ok verdict ∧ Judged r n e verdict := by
  have hx := Array.getElem?_eq_getElem hsource
  have hy := Array.getElem?_eq_getElem hlt
  refine ⟨_, bind_eq_ok_iff.mpr ⟨_, var_eq_ok_iff.mpr hx,
    bind_eq_ok_iff.mpr ⟨_, var_eq_ok_iff.mpr hy, rfl⟩⟩, ?_⟩
  split
  · rename_i hsingle
    simp only [Bool.and_eq_true, decide_eq_true_eq, Bool.not_eq_true'] at hsingle
    refine .rename hkind hargs hdest ⟨?_, ?_, ?_⟩ ?_
    · rw [writesOf_eq hx]
      exact hsingle.2.1.1
    · rw [readsOf_eq hx]
      exact hsingle.2.1.2
    · rw [addressableAt, traits, hx]
      exact hsingle.2.2
    · rw [writesOf_eq hy]
      exact hsingle.1
  · exact judged_keep hkind (by simp)

/-- A copy of a variable that goes nowhere is refused. -/
theorem exists_refusal (he : r.label n = some e) (hnot : ¬e.Bound) :
    ∃ fault, judge r n = .error fault := by
  simp only [Node.Bound, Classical.not_imp, not_forall, Bool.not_eq_true, isSome_eq_false_iff,
    isNone_iff_eq_none] at hnot
  obtain ⟨hkind, v, hargs, hdest⟩ := hnot
  have hunread : isUnread r { e with next := r.nextOf n, prev := r.prevOf n } = .ok false := by
    simp only [isUnread, hdest]
    rfl
  refine ⟨.refused (.malformed n "copy without destination"), ?_⟩
  rw [judge, node_eq_ok_iff.mpr (node_of_label he), ok_bind, hunread, ok_bind]
  simp only [judgeNode, hkind, hargs, hdest]
  rfl

/-- The verdict on a node of an intact stream. -/
theorem exists_verdict (h : r.Intact exit t) (hn : n ∈ t.nodes) (he : r.label n = some e)
    (hbound : e.Bound) : ∃ verdict, judge r n = .ok verdict ∧ Judged r n e verdict := by
  have hproper := h.proper n hn e he
  have hvar : ∀ v, e.dest = some v → ∃ x, r.vars[v]? = some x := fun v hv =>
    ⟨_, Array.getElem?_eq_getElem (h.dests n hn e v he hv)⟩
  unfold judge
  rw [node_eq_ok_iff.mpr (node_of_label he), ok_bind]
  refine exists_bind (P := fun unread => unread = true ↔ ∃ v, e.dest = some v ∧
    r.readsOf v = 0) ?_ fun unread hunread => ?_
  · unfold isUnread
    cases hdest : e.dest with
    | none => exact ⟨false, rfl, by simp⟩
    | some v =>
      obtain ⟨x, hx⟩ := hvar v hdest
      refine ⟨_, bind_eq_ok_iff.mpr ⟨x, var_eq_ok_iff.mpr hx, rfl⟩, ?_⟩
      simp [exists_eq_left', readsOf_eq hx]
  unfold judgeNode
  by_cases hcall : e.kind.isPlainCall = true
  · rw [if_pos hcall]
    cases unread with
    | true =>
      obtain ⟨v, hv, hreads⟩ := hunread.mp rfl
      exact ⟨_, rfl, .dropResult hcall hv hreads⟩
    | false => exact ⟨_, rfl, judged_keep rfl fun opener hk => by rw [hk] at hcall; cases hcall⟩
  rw [if_neg hcall]
  have hremove : e.kind.isCall = false → e.kind.isDeclaration = false → unread = true →
      Judged r n e .remove := by
    intro hnocall hnodecl hread
    obtain ⟨v, hv, hreads⟩ := hunread.mp hread
    exact .remove (hproper.result (by rw [hv]; rfl)) ⟨hnocall, hnodecl⟩ hv hreads
  have hother : (∀ opener, e.kind ≠ .close opener) → e.kind.isDeclaration = false →
      Judged r n e (if !e.kind.isCall && unread then .remove else .keep) := by
    intro hclose hnodecl
    split
    · rename_i hgone
      simp only [Bool.and_eq_true, Bool.not_eq_true'] at hgone
      exact hremove hgone.1 hnodecl hgone.2
    · exact judged_keep rfl hclose
  cases hkind : e.kind with
  | close opener =>
    cases hprev : (r.prevOf n)[1]? with
    | none => exact ⟨_, rfl, .keep fun _ _ => hprev⟩
    | some last => exact ⟨_, rfl, .descend hkind hprev⟩
  | declare role => cases role with
    | storage =>
      obtain ⟨v, hv⟩ := isSome_iff_exists.mp (hproper.storage hkind).1
      obtain ⟨x, hx⟩ := hvar v hv
      simp only [hv, var_eq_ok_iff.mpr hx, ok_bind]
      refine ⟨_, rfl, ?_⟩
      split
      · rename_i hunused
        simp only [Bool.and_eq_true, decide_eq_true_eq] at hunused
        exact .unlink hkind hv (by rw [readsOf_eq hx]; exact hunused.1)
          (by rw [writesOf_eq hx]; exact hunused.2)
      · exact judged_keep hkind nofun
    | param | result => exact ⟨_, rfl, judged_keep hkind nofun⟩
  | ret => exact ⟨_, rfl, judged_keep hkind nofun⟩
  | op code =>
    have hdefault := hother (by rw [hkind]; simp) (by rw [hkind]; rfl)
    have hgone : unread = true → Judged r n e .remove :=
      hremove (by rw [hkind]; rfl) (by rw [hkind]; rfl)
    by_cases hcopy : code = .copy
    · subst hcopy
      rcases hargs : e.args with _ | ⟨arg, _ | ⟨_, _⟩⟩
      · exact ⟨_, rfl, hkind ▸ hdefault⟩
      · cases arg with
        | var source =>
          simp only
          split
          · rename_i hread
            exact ⟨_, rfl, hgone hread⟩
          · obtain ⟨dest, hdest⟩ := isSome_iff_exists.mp (hbound hkind source hargs)
            rw [hdest]
            refine exists_judgeCopy hkind hargs hdest ?_ (h.dests n hn e dest he hdest)
            refine h.lt_of_access (a := (source, .read)) (mem_flatMap.mpr ⟨n, by simp [hn], ?_⟩)
            refine mem_flatMap.mpr ⟨n, by simp, ?_⟩
            rw [accessesAt_self he]
            exact mem_accesses_of_arg (by simp [hargs])
        | lit value =>
          refine ⟨_, rfl, ?_⟩
          split
          · rename_i hread
            exact hgone hread
          · split
            · rename_i hnumeric
              exact .toConst hkind hargs hnumeric
            · exact judged_keep hkind nofun
        | node m => exact ⟨_, rfl, hkind ▸ hdefault⟩
      · exact ⟨_, by cases arg <;> rfl, hkind ▸ hdefault⟩
    · refine ⟨_, ?_, hkind ▸ hdefault⟩
      cases code <;> first | rfl | exact absurd rfl hcopy
  | define | enter | branch | call | yield | step | goto =>
    exact ⟨_, rfl, hkind ▸ hother (by rw [hkind]; simp) (by rw [hkind]; rfl)⟩

/-! ### Changing the result of a node -/

/-- Sending the result of a node elsewhere, or nowhere. -/
theorem yields_setDest {post : PUnit → Routine → Prop} (he : r.label n = some e)
    (hdest : e.dest = some v) (hnodecl : e.kind.isDeclaration = false) (hpos : 0 < r.tally v .write)
    (hnew : ∀ u, new = some u → u < r.vars.size)
    (hpost : ∀ r', r.Amends r' n e { e with dest := new } → post () r') :
    Yields (setDest n new) r post := by
  have hsize := lt_of_label he
  have hold := accesses_of_not_declaration hnodecl
  have hnew' : ({ e with dest := new } : Node).accesses =
      new.toList.map (·, .write) ++ (e.args.filterMap Operand.var?).map fun v => (v, Access.read) :=
    accesses_of_not_declaration (e := { e with dest := new }) hnodecl
  have hamends : ∀ {r₁ r₂ : Routine}, r.Releases r₁ [(v, .write)] →
      r₂.Releases r₁ (new.toList.map (·, .write)) →
      r.Amends (r₂.alter n ({ · with dest := new })) n e { e with dest := new } := fun h₁ h₂ =>
    amends_of_moves (f := ({ · with dest := new })) he (fun _ => rfl) (fun _ => rfl) rfl
      (fun _ => rfl) (h₁.alter n _) (h₂.alter n _) fun a => by
        rw [hold, hnew', hdest]
        simp only [toList_some, map_cons, map_nil, count_append]
        omega
  simp only [setDest, yields_bind, yields_node, node_of_label he, exists_some_eq, hdest]
  refine yields_release hpos fun r₁ h₁ => ?_
  have hsize₁ : n < r₁.nodes.size := by rwa [h₁.nodes_eq]
  cases new with
  | none => exact yields_changeNode.mpr ⟨hsize₁, hpost _ (hamends h₁ (.refl r₁))⟩
  | some u =>
    refine yields_bind.mpr (yields_count (h₁.adds.size ▸ hnew u rfl) fun r₂ h₂ => ?_)
    exact yields_changeNode.mpr ⟨by rwa [← h₂.nodes_eq], hpost _ (hamends h₁ h₂)⟩

/-- What a node writes counts as written. -/
theorem written_pos (h : r.Intact exit t) (hn : n ∈ t.nodes) (he : r.label n = some e)
    (hdest : e.dest = some v) (hnodecl : e.kind.isDeclaration = false) : 0 < r.tally v .write := by
  refine Nat.lt_of_lt_of_le ?_ (h.count_le (mem_live hn) v .write)
  refine count_pos_iff.mpr (mem_flatMap.mpr ⟨n, mem_cons_self, ?_⟩)
  rw [accessesAt_self he, accesses_of_not_declaration hnodecl, hdest]
  simp

/-- Where the result of a node has to go: to the variable its destination was folded into. -/
def heading (r : Routine) (e : Node) : Option VarId :=
  if e.kind.isDeclaration then e.dest else e.dest.map fun v => (r.foldedOf v).getD v

theorem heading_eq_none (hdest : e.dest = none) : heading r e = none := by
  unfold heading
  split
  · exact hdest
  · rw [hdest, map_none]

theorem heading_congr (h : ∀ v, r'.traits v = r.traits v) (e : Node) :
    heading r' e = heading r e := by
  simp only [heading, foldedOf, h]

theorem heading_eq_some (hdest : e.dest = some v) (hnodecl : e.kind.isDeclaration = false) :
    heading r e = some ((r.foldedOf v).getD v) := by
  rw [heading, hdest, hnodecl]
  rfl

/-- A copy of a variable goes somewhere if it did before it was sent elsewhere. -/
theorem bound_heading (r : Routine) (e : Node) :
    ({ e with dest := heading r e } : Node).Bound ↔ e.Bound := by
  have hsome : (heading r e).isSome = e.dest.isSome := by
    unfold heading
    split
    · rfl
    · rw [isSome_map]
  simp [Node.Bound, hsome]

theorem boundAt_heading (ha : r.Amends r' n e { e with dest := heading r e }) (m : NodeId) :
    r'.BoundAt m ↔ r.BoundAt m := by
  by_cases hm : m = n
  · subst hm
    simp [BoundAt, ha.label_self, ha.label, forall_eq', bound_heading]
  · exact boundAt_congr (ha.label_of_ne hm)

/-- Only the variable that is folded gets a new target. -/
theorem foldedOf_alterVar (hlt : source < r.vars.size) (v : VarId) :
    (r.alterVar source ({ · with foldedInto := some dest })).foldedOf v =
    if v = source then some dest else r.foldedOf v := by
  rw [foldedOf, traits_alterVar (g := ({ · with foldedInto := some dest })) fun _ => rfl]
  split
  · next heq =>
    rw [heq, traits, Array.getElem?_eq_getElem hlt]
    rfl
  · rfl

theorem amends_refl (he : r.label n = some e) : r.Amends r n e e where
  size := rfl
  entry := rfl
  mem := rfl
  next _ := rfl
  prev _ := rfl
  label := he
  labels m := by
    split
    · next heq => rw [heq, he]
    · rfl
  vars := rfl
  traits _ := rfl
  tally _ _ := rfl

/-- The result of a node is sent where it has to go. -/
theorem yields_redirect (h : r.Intact exit t) (hn : n ∈ t.nodes) (he : r.label n = some e) :
    Yields (redirect n) r fun _ r' => r.Amends r' n e { e with dest := heading r e } := by
  have hsame : heading r e = e.dest → r.Amends r n e { e with dest := heading r e } := fun heq => by
    rw [heq]
    exact amends_refl he
  simp only [redirect, yields_bind, yields_node, node_of_label he, exists_some_eq]
  cases hdest : e.dest with
  | none => exact hsame ((heading_eq_none hdest).trans hdest.symm)
  | some v =>
    simp only
    split
    · rename_i hnodecl
      simp only [Bool.not_eq_true'] at hnodecl
      have hlt := h.dests n hn e v he hdest
      have hx := Array.getElem?_eq_getElem hlt
      have hfoldedOf : r.foldedOf v = (r.vars[v]?).bind Variable.foldedInto := by
        rw [foldedOf, traits, hx]
        rfl
      have hheading := heading_eq_some (r := r) hdest hnodecl
      rw [hfoldedOf, hx, bind_some] at hheading
      simp only [yields_bind, yields_var, hx, exists_some_eq]
      cases hfolded : (r.vars[v]).foldedInto with
      | none =>
        refine hsame ?_
        rw [hheading, hfolded, hdest, getD_none]
      | some target =>
        rw [hfolded, getD_some] at hheading
        rw [hheading]
        refine yields_setDest he hdest hnodecl (written_pos h hn he hdest hnodecl)
          (fun u hu => ?_) fun r' ha => ha
        rw [← some.inj hu]
        exact h.folded v target (by rw [hfoldedOf, hx]; exact hfolded)
    · rename_i hdecl
      refine hsame ?_
      simp only [Bool.not_eq_true', Bool.not_eq_false] at hdecl
      rw [heading, if_pos hdecl]

/-- The result of a node is sent where it has to go, to a variable that exists. -/
theorem leaves_heading (h : r.Intact exit t) (hn : n ∈ t.nodes)
    (ha : r.Amends r' n e { e with dest := heading r e }) : r.Leaves exit t r' t {} := by
  have hproper := h.proper n hn e ha.label
  have hdests := h.dests n hn e
  have hleaves := Relabels.leaves ⟨ha, Or.inl rfl, fun _ => rfl⟩ h hn rfl
  by_cases hsame : heading r e = e.dest
  · rw [hsame] at ha hleaves
    exact hleaves hproper (fun u => hdests u ha.label) id (.refl e)
  · have hnodecl : e.kind.isDeclaration = false := by
      by_contra hdecl
      exact hsame (by rw [heading, if_pos (by simpa using hdecl)])
    obtain ⟨v, hdest⟩ := ne_none_iff_exists'.mp fun hnone =>
      hsame ((heading_eq_none hnone).trans hnone.symm)
    refine hleaves (hproper.withDest hnodecl (by rw [hdest]; rfl)) (fun u hu => ?_)
      (bound_heading r e).mpr ⟨heading_eq_none, fun _ => rfl⟩
    rw [heading_eq_some hdest hnodecl] at hu
    cases hfolded : r.foldedOf v with
    | none =>
      rw [hfolded, getD_none, some.injEq] at hu
      exact hu ▸ hdests v ha.label hdest
    | some target =>
      rw [hfolded, getD_some, some.injEq] at hu
      exact hu ▸ h.folded v target hfolded

/-! ### Taking a node out -/

/-- The stream `t'` of `r'` is the stream `t` of `r` without the node `n`. -/
structure Skips (r : Routine) (exit : NodeId) (t : Strand) (n : NodeId) (r' : Routine)
    (t' : Strand) : Prop where
  leaves : r.Leaves exit t r' t' {}
  nodes : t.nodes.Perm (n :: t'.nodes)
  labels : ∀ m, r'.label m = r.label m
  prev : ∀ m, m ≠ n → n ∉ r.prevOf m → r'.prevOf m = r.prevOf m

/-- A node that control just passes through leaves the stream once it is released. -/
theorem yields_unlink {kind : NodeKind} (h : r.Intact exit t) (hn : n ∈ t.nodes)
    (hkind : r.kindOf n = some kind) (hplain : kind.isPlain = true)
    (hrel : r.Releases w.routine (r.accessesOf n)) :
    Yields (unlink n) w fun _ w' => ∃ t', Skips r exit t n w'.routine t' := by
  obtain ⟨C, rest, hplug⟩ := h.shaped.exists_plug hn hkind hplain
  obtain rfl : t = C.plug (.leaf n rest) := hplug
  have hcarries := hrel.carries h.toCarries
  have hleaves := h.leaves_rest (x := .leaf n .done) (by simpa [Strand.nodes] using hrel)
    ((Rewires.refl w.routine).bypassed _ _ _) hcarries.bypassed (by simp)
  simp only [unlink, yields_bind, Pass.yields_note, Pass.yields_lift]
  refine (yields_removeNode hcarries).mpr ⟨C.plug rest, { hleaves with length := ?_ }, ?_,
    fun m => ?_, fun m hm hnot => ?_⟩
  · exact Nat.le_of_succ_le hleaves.length
  · exact (C.perm_plug _).trans ((C.perm_plug rest).symm.cons n)
  · rw [label_bypassed, hrel.label_eq]
  · have hbehind := hcarries.part.leaf_rest.entry
    have hne : m ≠ (rest.entryPort (C.target (exit, 0))).1 := by
      rintro rfl
      refine hnot ?_
      rw [← hrel.prevOf_eq]
      exact mem_of_getElem? hbehind.2
    rw [prevOf_bypassed (lt_of_next hbehind.1) (lt_of_prev hbehind.2), if_neg hm,
      if_neg hne, hrel.prevOf_eq]

/-- A copy that becomes the definition of a number. -/
theorem relabels_toConst (he : r.label n = some e) (hkind : e.kind = .op .copy) :
    r.Relabels (r.alter n ({ · with kind := .op .const })) n e { e with kind := .op .const } := by
  refine ⟨amends_of_releases (f := ({ · with kind := .op .const })) he (fun _ => rfl) (fun _ =>
    rfl) rfl (fun _ => rfl) (.refl _) fun a => ?_, Or.inr ⟨_, _, hkind, rfl⟩, fun _ => rfl⟩
  rw [accesses_of_not_declaration (by rw [hkind]; rfl),
    accesses_of_not_declaration (by rfl)]
  simp

/-- A copy of a number that becomes its definition. -/
theorem leaves_toConst (h : r.Intact exit t) (hn : n ∈ t.nodes)
    (he : r.label n = some e) (hkind : e.kind = .op .copy) :
    r.Leaves exit t (r.alter n ({ · with kind := .op .const })) t {} :=
  (relabels_toConst he hkind).leaves h hn rfl ⟨rfl, fun _ => rfl, (fun hk => by cases hk),
    fun hk => by cases hk⟩
    (fun v => h.dests n hn e v he) (fun _ hk => by cases hk) ⟨id, fun hkept => by cases hkept⟩

/-! ### Visiting a node -/

/-- The node `m` stands in the stream `t` of `r` where it stood in `r₀`. -/
structure Stands (r₀ r : Routine) (t : Strand) (m : NodeId) : Prop where
  mem : m ∈ t.nodes
  prev : r.prevOf m = r₀.prevOf m
  kind : r.kindOf m = r₀.kindOf m
  bound : r.BoundAt m ↔ r₀.BoundAt m

theorem Stands.trans {r₀ : Routine} {t' : Strand} {m : NodeId} (h : Stands r₀ r t m)
    (h' : Stands r r' t' m) : Stands r₀ r' t' m :=
  ⟨h'.mem, h'.prev.trans h.prev, h'.kind.trans h.kind, h'.bound.trans h.bound⟩

/-- A sweep from `r₀` has left the nodes `todo` for later: they stand where they stood. -/
def Pending (r₀ : Routine) (exit : NodeId) (t₀ : Strand) (todo : List NodeId)
    (r : Routine) : Prop :=
  ∃ t, r₀.Leaves exit t₀ r t {} ∧ ∀ m ∈ todo, Stands r₀ r t m

namespace Pending

variable {r₀ : Routine} {t₀ : Strand} {todo l : List NodeId}

theorem mono (h : Pending r₀ exit t₀ todo r) (hsub : l ⊆ todo) : Pending r₀ exit t₀ l r := by
  obtain ⟨t, hleaves, hstand⟩ := h
  exact ⟨t, hleaves, fun m hm => hstand m (hsub hm)⟩

/-- What the sweep does with a node leaves the others for later. -/
theorem step (h : r₀.Leaves exit t₀ r t {}) (hstand : ∀ m ∈ l, Stands r₀ r t m) {t' : Strand}
    (h' : r.Leaves exit t r' t' {}) (hsame : ∀ m ∈ l, Stands r r' t' m) : Pending r₀ exit t₀ l r' :=
  ⟨t', h.trans h', fun m hm => (hstand m hm).trans (hsame m hm)⟩

end Pending

section Visit

variable {r₀ : Routine} {t₀ : Strand} {l : List NodeId}
    {sweep : NodeId → NodeId → Pass Nat} {verdict : Verdict}

/-- Redirecting a result disturbs nothing ahead. -/
theorem yields_redirect_pending (hp : Pending r₀ exit t₀ l r) (hn : n ∈ l) :
    Yields (redirect n) r fun _ r' => Pending r₀ exit t₀ l r' := by
  obtain ⟨t, hleaves, hstand⟩ := hp
  obtain ⟨e, he, -⟩ := hleaves.intact.exists_label (hstand n hn).mem
  refine (yields_redirect hleaves.intact (hstand n hn).mem he).mono fun _ r' ha => ?_
  exact Pending.step hleaves hstand (leaves_heading hleaves.intact (hstand n hn).mem ha) fun m hm =>
    ⟨(hstand m hm).mem, ha.prev m, by simpa using ha.kindOf_eq id rfl m, boundAt_heading ha m⟩

/-- What becomes of a node that has been judged. -/
inductive Disposed (r : Routine) (exit : NodeId) (t : Strand) (n : NodeId) (e : Node) :
    Routine → Strand → Prop
  | kept : Disposed r exit t n e r t
  | muted {r' : Routine} {v : VarId} (hcall : e.kind.isPlainCall = true) (hdest : e.dest = some v)
    (ha : r.Amends r' n e { e with dest := none }) : Disposed r exit t n e r' t
  | fixed (hcopy : e.kind = .op .copy) :
    Disposed r exit t n e (r.alter n ({ · with kind := .op .const })) t
  | removed {r' : Routine} {t' : Strand} (hskips : Skips r exit t n r' t') :
    Disposed r exit t n e r' t'
  | folded {r' : Routine} {t' : Strand} {source dest : VarId}
    (hfold : (r.alterVar source ({ · with foldedInto := some dest })).Intact exit t)
    (hskips : Skips (r.alterVar source ({ · with foldedInto := some dest })) exit t n r' t') :
    Disposed r exit t n e r' t'

theorem isDeclaration_of_isPlainCall {kind : NodeKind} (h : kind.isPlainCall = true) :
    kind.isDeclaration = false := by
  cases kind <;> simp_all [NodeKind.isPlainCall]

/-- The variable a copy is made from is folded, and the copy is released before it is taken out. -/
theorem yields_rename {post : Work → Prop} (h : w.routine.Intact exit t) (hn : n ∈ t.nodes)
    (he : w.routine.label n = some e) (hcopy : e.kind = .op .copy)
    (hargs : e.args = [.var source]) (hdest : e.dest = some dest)
    (hk : let r₁ := w.routine.alterVar source ({ · with foldedInto := some dest })
      ∀ w₁ : Work, source < w.routine.vars.size → r₁.Intact exit t →
      r₁.Releases w₁.routine (r₁.accessesOf n) → Yields (unlink n) w₁ fun _ => post) :
    Yields (carryOut sweep n (.rename source dest)) w fun _ => post := by
  have hlive : n ∈ w.routine.live exit t := mem_live hn
  have haccesses : ∀ {r₁ : Routine}, r₁.label n = some e →
      r₁.accessesOf n = [(dest, .write), (source, .read)] := fun he₁ => by
    rw [accessesOf_flat he₁ (by rw [Node.Flat, hargs]; simp),
      accesses_of_not_declaration (by rw [hcopy]; rfl), hargs, hdest]
    rfl
  have hsource : source < w.routine.vars.size := h.lt_of_access (a := (source, .read))
    (mem_flatMap.mpr ⟨n, hlive, by rw [haccesses he]; simp⟩)
  have hfold := h.fold hsource (h.dests n hn e dest he hdest)
  have hcounted := hfold.count_le hlive
  have hk₁ := fun w₁ => hk w₁ hsource hfold
  rw [haccesses (show (w.routine.alterVar source ({ · with foldedInto := some dest })).label n =
    some e from he)] at hcounted hk₁
  simp only [carryOut, yields_bind, Pass.yields_note, Pass.yields_lift, yields_changeVar]
  exact ⟨hsource, yields_releaseTwo hcounted fun r₁ h₁ => hk₁ _ h₁⟩

/-- Carrying out the verdict on a node other than a closing one. -/
theorem yields_carryOut (h : w.routine.Intact exit t) (hn : n ∈ t.nodes)
    (he : w.routine.label n = some e) (hopen : ∀ opener, e.kind ≠ .close opener)
    (hjudged : Judged w.routine n e verdict) : Yields (carryOut sweep n verdict) w fun _ w' =>
    ∃ t', Disposed w.routine exit t n e w'.routine t' := by
  have hkind : w.routine.kindOf n = some e.kind := kindOf_of_label he rfl
  have hlive : n ∈ w.routine.live exit t := mem_live hn
  cases hjudged with
  | keep => exact ⟨t, .kept⟩
  | descend hclose => exact absurd hclose (hopen _)
  | dropResult hcall hdest =>
    have hnodecl := isDeclaration_of_isPlainCall hcall
    exact yields_bind.mpr
      (Pass.yields_lift.mpr (yields_setDest he hdest hnodecl (written_pos h hn he hdest hnodecl)
      (fun u hu => by cases hu) fun r' ha => yields_pure.mpr ⟨t, .muted hcall hdest ha⟩))
  | unlink hdecl hdest =>
    -- the declaration accesses nothing
    have hargs := ((h.proper n hn e he).storage hdecl).2
    have hnone : w.routine.accessesOf n = [] := by
      rw [accessesOf_flat he (by rw [Node.Flat, hargs]; simp), Node.accesses, hargs, hdecl, hdest]
      rfl
    refine yields_bind.mpr
      ((yields_unlink h hn hkind (by rw [hdecl]; rfl) ?_).mono fun _ w' h' => ?_)
    · rw [hnone]
      exact .refl _
    · obtain ⟨t', hskips⟩ := h'
      exact ⟨t', .removed hskips⟩
  | rename hcopy hargs hdest =>
    refine yields_rename h hn he hcopy hargs hdest fun w₁ _ hfold h₁ =>
      (yields_unlink hfold hn hkind (by rw [hcopy]; rfl) h₁).mono fun _ w' h' => ?_
    obtain ⟨t', hskips⟩ := h'
    exact ⟨t', .folded hfold hskips⟩
  | toConst hcopy =>
    exact yields_bind.mpr (Pass.yields_lift.mpr
      (yields_setKind.mpr ⟨lt_of_label he, yields_pure.mpr ⟨t, .fixed hcopy⟩⟩))
  | remove hplain =>
    refine yields_bind.mpr (Pass.yields_lift.mpr
      (yields_uncountNode (.refl _) (h.nested_eq hlive) (fun v access => ?_) fun r₁ h₁ => ?_))
    · exact h.count_le hlive v access
    · refine yields_bind.mpr ((yields_unlink (w := { w with routine := r₁ }) h hn hkind hplain
        h₁).mono fun _ w' h' => ?_)
      obtain ⟨t', hskips⟩ := h'
      exact ⟨t', .removed hskips⟩

namespace Disposed

variable {t' : Strand} {m : NodeId}

/-- Dropping the result of a call. -/
theorem leaves_muted (h : r.Intact exit t) (hn : n ∈ t.nodes) (hcall : e.kind.isPlainCall = true)
    (hdest : e.dest = some v) (ha : r.Amends r' n e { e with dest := none }) :
    r.Leaves exit t r' t {} := by
  have hproper : ({ e with dest := none } : Node).Proper :=
    (h.proper n hn e ha.label).withDest (isDeclaration_of_isPlainCall hcall) (by rw [hdest]; rfl)
  have hnot : e.kind ≠ .op .copy := fun hcopy => by rw [hcopy] at hcall; cases hcall
  exact Relabels.leaves ⟨ha, Or.inl rfl, fun _ => rfl⟩ h hn rfl hproper (fun u hu => by cases hu)
    (fun _ hcopy => absurd hcopy hnot) ⟨fun _ => rfl, fun _ => rfl⟩

variable (hd : Disposed r exit t n e r' t')
include hd

/-- What is left is an intact stream. -/
theorem leaves (h : r.Intact exit t) (hn : n ∈ t.nodes) (he : r.label n = some e) :
    r.Leaves exit t r' t' {} := by
  cases hd with
  | kept => exact .refl h
  | muted hcall hdest ha => exact leaves_muted h hn hcall hdest ha
  | fixed hcopy => exact leaves_toConst h hn he hcopy
  | removed hskips => exact hskips.leaves
  | folded hfold hskips =>
    have hnoted : r.Leaves exit t _ t {} :=
      ⟨hfold, Nat.le_refl _, fun _ => id, id, id, fun m hm => ⟨hm, stemsAt_of_label rfl⟩⟩
    exact hnoted.trans hskips.leaves

/-- The other nodes do what they did. -/
theorem label_of_ne (he : r.label n = some e) (hm : m ≠ n) : r'.label m = r.label m := by
  cases hd with
  | kept => rfl
  | muted _ _ ha => exact ha.label_of_ne hm
  | fixed hcopy => exact (relabels_toConst he hcopy).label_of_ne hm
  | removed hskips | folded _ hskips => exact hskips.labels m

theorem mem_of_ne (hm : m ∈ t.nodes) (hne : m ≠ n) : m ∈ t'.nodes := by
  cases hd with
  | kept | muted | fixed => exact hm
  | removed hskips | folded _ hskips =>
    exact (mem_cons.mp (hskips.nodes.mem_iff.mp hm)).resolve_left hne

/-- What does not follow the node stands where it stood. -/
theorem stands (he : r.label n = some e) (hm : m ∈ t.nodes) (hne : m ≠ n) (hprev : n ∉ r.prevOf m) :
    Stands r r' t' m := by
  have hlabel := hd.label_of_ne he hne
  refine ⟨hd.mem_of_ne hm hne, ?_, kindOf_congr hlabel, boundAt_congr hlabel⟩
  cases hd with
  | kept => rfl
  | muted _ _ ha => exact ha.prev m
  | fixed hcopy => exact (relabels_toConst he hcopy).prev m
  | removed hskips | folded _ hskips => exact hskips.prev m hne hprev

end Disposed

/-- What the sweep does with a node leaves those in front of it for later. -/
theorem yields_carryOut_pending (hp : Pending r₀ exit t₀ (l ++ [n]) w.routine)
    (hlast : ∀ m ∈ l, m ≠ n ∧ n ∉ r₀.prevOf m) (he : w.routine.label n = some e)
    (hopen : ∀ opener, e.kind ≠ .close opener) (hjudged : Judged w.routine n e verdict) :
    Yields (carryOut sweep n verdict) w fun _ w' => Pending r₀ exit t₀ l w'.routine := by
  obtain ⟨t, hleaves, hstand⟩ := hp
  have hn : n ∈ t.nodes := (hstand n (by simp)).mem
  have hl : ∀ m ∈ l, Stands r₀ w.routine t m := fun m hm => hstand m (by simp [hm])
  refine (yields_carryOut hleaves.intact hn he hopen hjudged).mono fun _ w' h' => ?_
  obtain ⟨t', hd⟩ := h'
  refine Pending.step hleaves hl (hd.leaves hleaves.intact hn he) fun m hm =>
    hd.stands he (hl m hm).mem (hlast m hm).1 ?_
  rw [(hl m hm).prev]
  exact (hlast m hm).2

end Visit

/-! ### The walk -/

/-- What a sweep from `r₀` keeps: `kept l` as long as the nodes `l` are still to be visited, and
`sent l n` once the result of the node `n` behind them goes where it has to. -/
structure Sweeps (r₀ : Routine) (exit : NodeId) (t₀ : Strand) (kept : List NodeId → Routine → Prop)
    (sent : List NodeId → NodeId → Routine → Prop) : Prop where
  stand : ∀ {l n r}, sent l n r → ∃ t, r.Intact exit t ∧ ∀ m ∈ l ++ [n], Stands r₀ r t m
  pass : ∀ {l n r o}, l ++ [n] <+: t₀.nodes → r₀.BoundAt n → r₀.kindOf n = some (.close o) →
    sent l n r → kept l r
  sends : ∀ {l n r}, l ++ [n] <+: t₀.nodes → kept (l ++ [n]) r →
    Yields (redirect n) r fun _ r' => sent l n r'
  carries : ∀ {l n e verdict sweep} {w : Work}, l ++ [n] <+: t₀.nodes → r₀.BoundAt n →
    sent l n w.routine → w.routine.label n = some e → (∀ opener, e.kind ≠ .close opener) →
    Judged w.routine n e verdict → Yields (carryOut sweep n verdict) w fun _ w' => kept l w'.routine

/-- The sweep from `n` back to `stop` ends well, unless some copy of the stream it set out from goes
nowhere. -/
def EndsWell (r₀ : Routine) (t₀ : Strand) (good : Work → Prop) (fuel : Nat) (n stop : NodeId)
    (w : Work) : Prop :=
  Ends (backwardWithin fuel (some n) stop) w (fun _ w' => good w') fun _ => ¬r₀.Bound t₀

namespace Sweeps

variable {r₀ : Routine} {t₀ : Strand} {l ps : List NodeId}
  {kept : List NodeId → Routine → Prop} {sent : List NodeId → NodeId → Routine → Prop}
  {p stop : NodeId} {fuel : Nat} {good : Work → Prop}

variable (h : Sweeps r₀ exit t₀ kept sent) (hpre : l ++ [n] <+: t₀.nodes)
    (hkept : kept (l ++ [n]) w.routine) (hprev : r₀.prevOf n = p :: ps) (hne : n ≠ stop)
include h hpre hkept hprev hne

/-- The step to the node in front, given what is done with a node that is visited. The sweep only
stops at a copy that goes nowhere. -/
theorem ends_cons (hcarry : r₀.BoundAt n → ∀ r' e verdict, sent l n r' →
        r'.label n = some e → Judged r' n e verdict →
        Ends (carryOut (fun last opener => backwardWithin fuel (some last) opener) n verdict)
        { w with routine := r' } (fun _ w' => EndsWell r₀ t₀ good fuel p stop w') fun _ =>
        ¬r₀.Bound t₀) : EndsWell r₀ t₀ good (fuel + 1) n stop w := by
  rw [EndsWell, backwardWithin, if_neg hne]
  refine ends_bind.mpr
    (Yields.ends (Pass.yields_lift.mpr ((h.sends hpre hkept).mono fun _ r' hsent => ?_)))
  obtain ⟨t, hintact, hstand⟩ := h.stand hsent
  obtain ⟨hn, hprev', -, hbound⟩ := hstand n (by simp)
  obtain ⟨e, he, -⟩ := hintact.exists_label hn
  refine ends_bind.mpr
    (Yields.ends (Pass.yields_lift.mpr (yields_node.mpr ⟨_, node_of_label he, ?_⟩)))
  have hfirst :
      ({ e with next := r'.nextOf n, prev := r'.prevOf n } : Node).firstPrev = some p := by
    rw [firstPrev, hprev', hprev]
    rfl
  rw [hfirst]
  by_cases hlands : e.Bound
  · obtain ⟨verdict, hverdict, hjudged⟩ := exists_verdict hintact hn he hlands
    refine ends_bind.mpr (Yields.ends (Pass.yields_ask.mpr ⟨verdict, hverdict, ?_⟩))
    refine ends_bind.mpr
      ((hcarry (hbound.mp fun x hx => ?_) r' e verdict hsent he hjudged).mono fun _ w' hrest => ?_)
    · exact some.inj (he.symm.trans hx) ▸ hlands
    · exact ends_bind.mpr (hrest.mono fun _ _ hgood => hgood)
  · obtain ⟨fault, hfault⟩ := exists_refusal he hlands
    refine ends_bind.mpr (ends_toAction (fun verdict hverdict => ?_) fun _ _ hall => hlands ?_)
    · cases hfault.symm.trans hverdict
    · exact hbound.mpr (hall n (hpre.subset (by simp))) e he

/-- A node other than a closing one. -/
theorem ends_open (hopen : ∀ opener, r₀.kindOf n ≠ some (.close opener))
      (hk : ∀ w' : Work, kept l w'.routine → EndsWell r₀ t₀ good fuel p stop w') :
      EndsWell r₀ t₀ good (fuel + 1) n stop w := by
  refine h.ends_cons hpre hkept hprev hne fun hbound r' e verdict hsent he hjudged => ?_
  refine Yields.ends ((h.carries (w := { w with routine := r' }) hpre hbound hsent he
    (fun opener hkind => ?_) hjudged).mono fun _ w' => hk w')
  obtain ⟨t, -, hstand⟩ := h.stand hsent
  refine hopen opener ?_
  rw [← (hstand n (by simp)).kind, kindOf, he, map_some, hkind]

/-- A closing node. The second arm of a conditional is swept from here. -/
theorem ends_close {o : NodeId} (hclose : r₀.kindOf n = some (.close o))
      (hk : ∀ w' : Work, kept l w'.routine → ps = [] → EndsWell r₀ t₀ good fuel p stop w')
    (harm : ∀ w' : Work, kept l w'.routine → ∀ q qs, ps = q :: qs →
      EndsWell r₀ t₀ (EndsWell r₀ t₀ good fuel p stop) fuel q o w') :
      EndsWell r₀ t₀ good (fuel + 1) n stop w := by
  refine h.ends_cons hpre hkept hprev hne fun hbound r' e verdict hsent he hjudged => ?_
  have hrest := h.pass hpre hbound hclose hsent
  obtain ⟨t, -, hstand⟩ := h.stand hsent
  obtain ⟨-, hprev', hkind', -⟩ := hstand n (by simp)
  have hkind : e.kind = .close o := by
    rw [hclose, kindOf, he, map_some, some.injEq] at hkind'
    exact hkind'
  rw [hprev] at hprev'
  cases hjudged with
  | keep hnone =>
    have hnil : ps = [] := by
      have hnone := hnone o hkind
      rw [hprev'] at hnone
      cases ps with
      | nil => rfl
      | cons q qs => cases hnone
    exact hk { w with routine := r' } hrest hnil
  | descend hsame hlast =>
    rw [hkind] at hsame
    cases hsame
    rw [hprev'] at hlast
    cases ps with
    | nil => cases hlast
    | cons q qs =>
      cases hlast
      exact harm { w with routine := r' } hrest _ qs rfl
  | dropResult hcall =>
    rw [hkind] at hcall
    cases hcall
  | unlink hdecl =>
    rw [hkind] at hdecl
    cases hdecl
  | rename hcopy | toConst hcopy =>
    rw [hkind] at hcopy
    cases hcopy
  | remove hplain =>
    rw [hkind] at hplain
    cases hplain

omit h hpre hkept hprev hne

/-- The sweep ends where it is told to. -/
theorem endsWell_stop (h : good w) : EndsWell r₀ t₀ good fuel stop stop w := by
  refine Yields.ends ?_
  cases fuel <;> simpa [backwardWithin] using h

/-- The sweep over the last part of what is still to come, from its last node to the node in front
of it. -/
theorem ends_part {src dst : Port} {m : Nat} (h : Sweeps r₀ exit t₀ kept sent)
    (hnodup : t₀.nodes.Nodup) (hlays : r₀.Lays src t dst) (hshaped : t.Shaped r₀.kindOf)
    (hpre : l ++ t.nodes <+: t₀.nodes) (hstop : stop ∉ t.nodes) (hp : kept (l ++ t.nodes) w.routine)
    (hfuel : m + t.nodes.length ≤ fuel) (hk : ∀ (w' : Work) fuel', m ≤ fuel' → kept l w'.routine →
      EndsWell r₀ t₀ good fuel' src.1 stop w') :
    EndsWell r₀ t₀ good fuel (t.exitPort src).1 stop w := by
  induction t generalizing src dst l stop m fuel w good with
  | done =>
    simp only [Strand.nodes, append_nil] at hp
    exact hk w fuel (by omega) hp
  | leaf n rest ih =>
    simp only [Strand.nodes, mem_cons, not_or, length_cons] at hstop hfuel
    rw [show (Strand.leaf n rest).nodes = [n] ++ rest.nodes from rfl, ← List.append_assoc]
      at hpre hp
    refine ih (m := m + 1) hlays.leaf_rest hshaped.2 hpre hstop.2 hp (by omega)
      fun w₁ fuel₁ hfuel₁ h₁ => ?_
    obtain _ | fuel₁ := fuel₁
    · omega
    obtain ⟨kind, hkind, -, hnoclose⟩ := hshaped.1
    refine h.ends_open ((prefix_append _ _).trans hpre) h₁ hlays.prevOf_leaf
      (Ne.symm hstop.1) (fun opener hclose => ?_) fun w₂ h₂ => hk w₂ fuel₁ (by omega) h₂
    rw [hkind] at hclose
    cases hclose
    cases hnoclose
  | region o c body rest ihb ihr =>
    simp only [Strand.nodes, cons_append, mem_cons, mem_append, not_or, length_cons, length_append]
      at hstop hfuel
    obtain ⟨⟨form, suspends, hkind⟩, hclose, hbody, hrest⟩ := hshaped
    have hsplit : l ++ (Strand.region o c body rest).nodes =
      l ++ [o] ++ body.nodes ++ [c] ++ rest.nodes := by simp
    rw [hsplit] at hpre hp
    have hinner : l ++ [o] ++ body.nodes <+: t₀.nodes := by
      refine IsPrefix.trans ?_ hpre
      rw [List.append_assoc _ [c]]
      exact prefix_append _ _
    refine ihr (m := m + body.nodes.length + 2) hlays.region_rest hrest hpre hstop.2.2.2 hp
      (by omega) fun w₁ fuel₁ hfuel₁ h₁ => ?_
    obtain _ | fuel₁ := fuel₁
    · omega
    refine h.ends_close (n := c) ((prefix_append _ _).trans hpre) h₁ hlays.prevOf_closer
      (Ne.symm hstop.2.2.1) hclose (fun w₂ h₂ _ => ?_) fun _ _ _ _ hmore => by cases hmore
    refine ihb (m := m + 1) hlays.region_body hbody hinner hstop.2.1 h₂ (by omega)
      fun w₃ fuel₃ hfuel₃ h₃ => ?_
    obtain _ | fuel₃ := fuel₃
    · omega
    refine h.ends_open (n := o) ((prefix_append _ _).trans hinner) h₃ hlays.prevOf_opener
      (Ne.symm hstop.1) (fun opener hclose => ?_) fun w₄ h₄ => hk w₄ fuel₃ (by omega) h₄
    rw [hkind] at hclose
    cases hclose
  | fork o c first second rest iha ihb ihr =>
    simp only [Strand.nodes, cons_append, List.append_assoc, mem_cons, mem_append, not_or,
      length_cons, length_append] at hstop hfuel
    obtain ⟨⟨suspends, hkind⟩, hclose, hfirst, hsecond, hrest⟩ := hshaped
    have hsplit : l ++ (Strand.fork o c first second rest).nodes =
        l ++ [o] ++ first.nodes ++ second.nodes ++ [c] ++ rest.nodes := by simp
    rw [hsplit] at hpre hp
    have hinner : l ++ [o] ++ first.nodes ++ second.nodes <+: t₀.nodes := by
      refine IsPrefix.trans ?_ hpre
      rw [List.append_assoc _ [c]]
      exact prefix_append _ _
    have houter : l ++ [o] ++ first.nodes <+: t₀.nodes := (prefix_append _ _).trans hinner
    have ho : o ∉ second.nodes := fun hmem => by
      have hdistinct := hnodup.sublist hinner.sublist
      rw [nodup_append] at hdistinct
      exact hdistinct.2.2 o (by simp) o hmem rfl
    refine ihr (m := m + first.nodes.length + second.nodes.length + 2) hlays.fork_rest hrest hpre
      hstop.2.2.2.2 hp (by omega) fun w₁ fuel₁ hfuel₁ h₁ => ?_
    obtain _ | fuel₁ := fuel₁
    · omega
    refine h.ends_close (n := c) ((prefix_append _ _).trans hpre) h₁ hlays.prevOf_join
      (Ne.symm hstop.2.2.2.1) hclose (fun _ _ hnone => by cases hnone) fun w₂ h₂ q qs hmore => ?_
    cases hmore
    -- the second arm is swept up to the conditional, then the sweep goes on in the first one
    refine ihb (m := 0) hlays.fork_second hsecond hinner ho h₂ (by omega) fun w₃ fuel₃ _ h₃ =>
      endsWell_stop ?_
    refine iha (m := m + 1) hlays.fork_first hfirst houter hstop.2.1 h₃ (by omega)
      fun w₄ fuel₄ hfuel₄ h₄ => ?_
    obtain _ | fuel₄ := fuel₄
    · omega
    refine h.ends_open (n := o) ((prefix_append _ _).trans houter) h₄ hlays.prevOf_fork
      (Ne.symm hstop.1) (fun opener hclose => ?_) fun w₅ h₅ => hk w₅ fuel₄ (by omega) h₅
    rw [hkind] at hclose
    cases hclose

/-- A sweep from the end of an intact stream to its entry. -/
theorem ends_backward (h : Sweeps w.routine exit t kept sent) (hintact : w.routine.Intact exit t)
    (hkept : kept t.nodes w.routine) : Ends backward w (fun _ w' => kept [] w'.routine) fun _ =>
    ¬w.routine.Bound t := by
  obtain ⟨d, hd⟩ := hintact.exists_node (n := exit) (by simp)
  have hfirst : d.firstPrev = some (t.exitPort (w.routine.entry, 0)).1 := by
    rw [firstPrev, ← prevOf_eq hd, hintact.toStreams.prevOf_exit]
    rfl
  have hfuel := le_editFuel hintact.toStreams.length_le_size
  refine ends_bind.mpr (Yields.ends (yields_get.mpr (ends_bind.mpr (Yields.ends (yields_toAction.mpr
    ⟨exit, hintact.toStreams.exit_eq, ?_⟩)))))
  refine ends_bind.mpr (Yields.ends (yields_toAction.mpr ⟨d, node_eq_ok_iff.mpr hd, ?_⟩))
  rw [hfirst]
  exact h.ends_part (l := []) (m := 0) hintact.nodup_nodes hintact.toLays
    hintact.shaped (prefix_refl _)
    hintact.entry_not_mem hkept (by omega) fun w' fuel' _ hnone => endsWell_stop hnone

/-- The sweep goes through if copies go somewhere. -/
theorem yields_backward (h : Sweeps w.routine exit t kept sent) (hintact : w.routine.Intact exit t)
    (hbound : w.routine.Bound t) (hkept : kept t.nodes w.routine) :
    Yields backward w fun _ w' => kept [] w'.routine :=
  (h.ends_backward hintact hkept).yields fun _ hnot => hnot hbound

/-- The copies that have been visited go somewhere. -/
theorem visited (h : Sweeps r₀ exit t₀ kept sent) : Sweeps r₀ exit t₀
    (fun l r => kept l r ∧ ∀ m ∈ t₀.nodes, m ∈ l ∨ r₀.BoundAt m)
    fun l n r => sent l n r ∧ ∀ m ∈ t₀.nodes, m ∈ l ++ [n] ∨ r₀.BoundAt m := by
  have hless : ∀ {l n}, r₀.BoundAt n → (∀ m ∈ t₀.nodes, m ∈ l ++ [n] ∨ r₀.BoundAt m) →
      ∀ m ∈ t₀.nodes, m ∈ l ∨ r₀.BoundAt m := by
    intro l n hbound hall m hm
    refine (hall m hm).elim (fun hmem => ?_) Or.inr
    rcases mem_append.mp hmem with hl | hn
    · exact Or.inl hl
    · exact Or.inr (mem_singleton.mp hn ▸ hbound)
  exact {
    stand := fun hsent => h.stand hsent.1
    pass :=
      fun hpre hbound hclose hsent => ⟨h.pass hpre hbound hclose hsent.1, hless hbound hsent.2⟩
    sends := fun hpre hkept => (h.sends hpre hkept.1).mono fun _ _ hsent => ⟨hsent, hkept.2⟩
    carries := fun hpre hbound hsent he hopen hjudged =>
      (h.carries hpre hbound hsent.1 he hopen hjudged).mono fun _ _ hkept =>
        ⟨hkept, hless hbound hsent.2⟩ }

end Sweeps

/-- Every edge of the stream goes forwards in its layout. -/
theorem forwards_of_leading (h : r.Carries exit t) {l : List NodeId} (hpre : l ++ [n] <+: t.nodes) :
    ∀ k ∈ l, k ≠ n ∧ n ∉ r.prevOf k := by
  intro k hk
  have hpair : [k, n].Sublist (r.entry :: t.nodes ++ [exit]) := by
    have hin : [k, n].Sublist t.nodes :=
      ((singleton_sublist.mpr hk).append (Sublist.refl [n])).trans hpre.sublist
    exact (hin.trans (sublist_append_left _ _)).cons r.entry
  have hlt := idxOf_lt_of_sublist h.nodup_layout hpair
  have hmem : k ∈ r.live exit t :=
    mem_live (hpre.subset (mem_append_left _ hk))
  refine ⟨fun heq => ?_, fun hprev => ?_⟩
  · rw [heq] at hlt
    omega
  · have hback := h.idxOf_lt (h.prev_mem hmem hprev) (h.mem_nextOf hmem hprev)
    omega

/-- What is left for later stands where it stood. -/
theorem sweeps_pending (h : r.Intact exit t) :
    Sweeps r exit t (Pending r exit t) fun l n => Pending r exit t (l ++ [n]) where
  stand hsent := by
    obtain ⟨t', hleaves, hstand⟩ := hsent
    exact ⟨t', hleaves.intact, hstand⟩
  pass _ _ _ hsent := hsent.mono (subset_append_left _ _)
  sends _ hkept := yields_redirect_pending hkept (by simp)
  carries hpre _ hsent he hopen hjudged :=
    yields_carryOut_pending hsent (forwards_of_leading h.toCarries hpre) he hopen hjudged

/-- The sweep from the end of an intact stream to its entry. It goes through exactly if copies go
somewhere. -/
theorem ends_backward (h : w.routine.Intact exit t) :
    Ends backward w (fun _ w' => w.routine.Bound t ∧ ∃ t', w.routine.Leaves exit t w'.routine t' {})
      fun _ => ¬w.routine.Bound t := by
  have hstart : Pending w.routine exit t t.nodes w.routine :=
    ⟨t, .refl h, fun m hm => ⟨hm, rfl, rfl, Iff.rfl⟩⟩
  refine ((sweeps_pending h).visited.ends_backward h ⟨hstart, fun m hm => Or.inl hm⟩).mono
    fun _ w' hp => ?_
  obtain ⟨⟨t', hleaves, -⟩, hbound⟩ := hp
  exact ⟨fun m hm => (hbound m hm).resolve_left not_mem_nil, t', hleaves⟩

end DeadCode

end CoroutineIR
