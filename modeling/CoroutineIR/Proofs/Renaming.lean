import CoroutineIR.Proofs.Echoing
import CoroutineIR.Proofs.Unread

/-!
# Variables that take over the definition of another one

When a copy is folded, its destination takes over the definition of its source. The sweep does so in
two steps: it takes the copy out and notes where the source has gone, and sends the result of the
definition there when it comes to it. In between the result is on its way. For every variable that
is still read, either the same nodes write it as before, or the node that writes it has written a
variable it was copied from, or nobody reads it in the run that is looked at.
-/

namespace CoroutineIR

variable {mem : VarId} {e e₀ : Node}

open List Option CoroutineIR.Action Attempt DeadCode Node Edit

/-- A node that may go if nobody needs what it delivers: an operation on values or a declaration of
storage. -/
def Node.Dispensable (e : Node) (mem : VarId) : Prop :=
  e.kind = .declare .storage ∨ ∃ code v, e.kind = .op code ∧ e.dest = some v ∧ v ≠ mem

/-- The same operation on the same operands, or a copy of a literal that has become its definition.
It has no destination if it had none, writes memory if it did, and declares the same variable. -/
structure Node.Resembles (mem : VarId) (e e₀ : Node) : Prop where
  args : e.args = e₀.args
  ty : e.ty = e₀.ty
  kind : e.kind = e₀.kind ∨ e₀.kind = .op .copy ∧ e.kind = .op .const ∧
    ∃ value, e₀.args = [.lit value]
  dest : e₀.dest = none ∨ e₀.dest = some mem ∨ e₀.kind.isDeclaration = true → e.dest = e₀.dest

/-- A copy of a literal becomes its definition once. -/
theorem Node.Resembles.trans {e' : Node} (h : e'.Resembles mem e) (h' : e.Resembles mem e₀) :
    e'.Resembles mem e₀ where
  args := h.args.trans h'.args
  ty := h.ty.trans h'.ty
  kind := by
    rcases h.kind with hkind | ⟨hcopy, hconst, value, hlit⟩
    · rw [hkind]
      exact h'.kind
    · rcases h'.kind with hkind' | ⟨-, hconst', -⟩
      · exact Or.inr ⟨hkind' ▸ hcopy, hconst, value, h'.args ▸ hlit⟩
      · rw [hcopy] at hconst'
        cases hconst'
  dest hdest := by
    have hsame := h'.dest hdest
    rw [← hsame] at hdest
    refine (h.dest (hdest.imp id (Or.imp id fun hdecl => ?_))).trans hsame
    rcases h'.kind with hkind | ⟨hcopy, -⟩
    · rwa [hkind]
    · rw [hcopy] at hdecl
      cases hdecl

theorem Node.Resembles.isPlain (h : e.Resembles mem e₀) : e₀.kind.isPlain = e.kind.isPlain := by
  rcases h.kind with hkind | ⟨hcopy, hconst, -⟩
  · rw [hkind]
  · rw [hcopy, hconst]
    rfl

/-- What a node reads does not depend on where its result goes, unless it is a declaration. -/
theorem Node.count_read_withDest (hnodecl : e.kind.isDeclaration = false) (new : Option VarId)
    (v : VarId) :
    ({ e with dest := new } : Node).accesses.count (v, .read) = e.accesses.count (v, .read) := by
  have hwrites : ∀ o : Option VarId, (o.toList.map (·, Access.write)).count (v, .read) = 0 :=
    fun o => count_eq_zero.mpr (by simp)
  rw [accesses_of_not_declaration hnodecl, accesses_of_not_declaration
    (e := { e with dest := new }) hnodecl, count_append, count_append, hwrites, hwrites]

theorem Node.count_read_heading (r : Routine) (e : Node) (v : VarId) :
    ({ e with dest := heading r e } : Node).accesses.count (v, .read) =
    e.accesses.count (v, .read) := by
  cases hdecl : e.kind.isDeclaration with
  | true => rw [heading, if_pos hdecl]
  | false => exact count_read_withDest hdecl _ v

namespace Routine

variable {r r' r₀ : Routine} {exit n m c d : NodeId} {t t' t₀ : Strand} {e' : Node}
  {u v x y : VarId} {todo todo' : List NodeId} {seen : NodeId → Prop}

/-- A node of the stream writes a variable. -/
def Writes (r : Routine) (t : Strand) (m : NodeId) (v : VarId) : Prop :=
  m ∈ t.nodes ∧ ∃ e, r.label m = some e ∧ e.dest = some v ∧ e.kind ≠ .declare .storage

/-- The variable `y` is only written by a copy of `x`, which is only written at `d`. None of them is
memory. -/
structure Copies (r : Routine) (t : Strand) (d c : NodeId) (x y : VarId) : Prop where
  locals : x ≠ r.mem ∧ y ≠ r.mem
  label : ∃ e, r.label c = some e ∧ e.kind = .op .copy ∧ e.args = [.var x]
  source : ∀ m, r.Writes t m x ↔ m = d
  only : ∀ m, r.Writes t m y ↔ m = c

/-- A variable comes from another one by such copies. -/
def Descends (r : Routine) (t : Strand) : VarId → VarId → Prop :=
  Relation.TransGen fun x y => ∃ d c, r.Copies t d c x y

/-- A variable is another one or comes from it. -/
def Stems (r : Routine) (t : Strand) : VarId → VarId → Prop :=
  Relation.ReflTransGen fun x y => ∃ d c, r.Copies t d c x y

/-- The nodes `seen` in a run: what is read is written at one of them if it is written at one place
only, and the source of a copy that is seen is written in front of it. -/
structure Traceable (r : Routine) (t : Strand) (seen : NodeId → Prop) : Prop where
  written : ∀ {c y m e}, y ≠ r.mem → (∀ m, r.Writes t m y ↔ m = c) → seen m → r.label m = some e →
    .var y ∈ e.args → seen c
  ordered : ∀ {d c x y}, seen c → r.Copies t d c x y → [d, c].Sublist t.nodes

/-- A variable that comes from one that is not read is not read either. -/
theorem Traceable.unread (h : r.Traceable t seen) (hstems : r.Stems t y u)
    (hnone : ∀ m e, seen m → r.label m = some e → .var y ∉ e.args) :
    ∀ m e, seen m → r.label m = some e → .var u ∉ e.args := by
  induction hstems with
  | refl => exact hnone
  | tail _ hcopies ih =>
    intro m e hm he hread
    obtain ⟨d, c, hcopies⟩ := hcopies
    obtain ⟨ec, hec, -, hargs⟩ := hcopies.label
    exact ih c ec (h.written hcopies.locals.2 hcopies.only hm he hread) hec (by simp [hargs])

/-- The result of a node goes to a variable once it has been sent on at the nodes `todo`. -/
def Heads (r : Routine) (t : Strand) (todo : List NodeId) (m : NodeId) (v : VarId) : Prop :=
  m ∈ t.nodes ∧ ∃ e, r.label m = some e ∧ (if m ∈ todo then heading r e else e.dest) = some v ∧
    e.kind ≠ .declare .storage

/-- Where a variable that is still read gets its value from. -/
inductive Origin (r₀ : Routine) (t₀ : Strand) (seen : NodeId → Prop) (r : Routine) (t : Strand)
    (todo : List NodeId) (u : VarId) : Prop
  /-- From the nodes that have always written it. -/
  | same (hheads : ∀ m, r.Heads t todo m u ↔ r₀.Writes t₀ m u)
  /-- From the node that has written a variable it comes from. -/
  | taken {x : VarId} {d : NodeId} (hdescends : r₀.Descends t₀ x u) (honly : ∀ m, r₀.Writes t₀ m x ↔
    m = d) (hheads : ∀ m, r.Heads t todo m u ↔ m = d) (hpassed : ∀ m ∈ todo, ¬r₀.Writes t₀ m u)
  /-- It is not read in the run. -/
  | unread (hnone : ∀ m e, seen m → r₀.label m = some e → .var u ∉ e.args)

theorem Origin.congr (h : Origin r₀ t₀ seen r t todo u)
    (hheads : ∀ m, r'.Heads t' todo' m u ↔ r.Heads t todo m u) (hsub : todo' ⊆ todo) :
    Origin r₀ t₀ seen r' t' todo' u := by
  cases h with
  | same hsame => exact .same fun m => (hheads m).trans (hsame m)
  | taken hdescends honly htaken hpassed =>
    exact .taken hdescends honly (fun m => (hheads m).trans (htaken m)) fun m hm =>
      hpassed m (hsub hm)
  | unread hnone => exact .unread hnone

/-- What a sweep from `r₀` has made of it while the nodes `todo` are still to be visited. -/
structure Tidied (r₀ : Routine) (exit : NodeId) (t₀ : Strand) (seen : NodeId → Prop)
    (todo : List NodeId) (r : Routine) (t : Strand) : Prop extends r.Flat exit t, r.Regular t where
  memory : r.mem = r₀.mem
  silent : ∀ m, m = r.entry ∨ m = exit → ∀ e, r.label m = some e →
    r₀.label m = some e ∧ e.accesses = []
  waiting : ∀ m ∈ todo, m ∈ t.nodes ∧ r.label m = r₀.label m ∧ r.prevOf m = r₀.prevOf m
  resembles : ∀ m ∈ t.nodes, ∀ e, r.label m = some e → ∃ e₀, r₀.label m = some e₀ ∧
    e.Resembles r₀.mem e₀
  gone : ∀ m ∈ t₀.nodes, m ∉ t.nodes → ∃ e₀, r₀.label m = some e₀ ∧ e₀.Dispensable r₀.mem
  sub : t.nodes.Sublist t₀.nodes
  noted : ∀ v, 0 < r.readsOf v → r.foldedOf v = none
  origin : ∀ u, 0 < r.readsOf u → Origin r₀ t₀ seen r t todo u
  shadows : r₀.Shadows r (r.entry :: exit :: t.nodes)

theorem writes_iff (hm : m ∈ t.nodes) (he : r.label m = some e) :
    r.Writes t m v ↔ (v, .write) ∈ e.accesses := by
  rw [write_mem_accesses_iff, Writes, he]
  simp [hm]

theorem heads_iff_writes (hm : m ∉ todo) : r.Heads t todo m v ↔ r.Writes t m v := by
  simp only [Heads, if_neg hm, Writes]

namespace Tidied

variable {p s : NodeId}

variable (h : Tidied r₀ exit t₀ seen todo r t)
include h

theorem intact : r.Intact exit t :=
  h.toWellStructured.intact h.toProper

/-- A node still to be visited stands where it stood. -/
theorem stands (hm : m ∈ todo) : Stands r₀ r t m := by
  obtain ⟨hmem, hlabel, hprev⟩ := h.waiting m hm
  exact ⟨hmem, hprev, kindOf_congr hlabel, boundAt_congr hlabel⟩

/-- Changing a node that has been visited. -/
theorem amend (ha : r.Relabels r' n e e') (hn : n ∈ t.nodes) (hresembles : e'.Resembles r₀.mem e)
    (hleaves : r.Leaves exit t r' t {}) (hsub : todo' ⊆ todo) (hnot : n ∉ todo')
    (hreads : ∀ v, r'.readsOf v = r.readsOf v)
    (hheads : ∀ u, 0 < r'.readsOf u → ∀ m, r'.Heads t todo' m u ↔ r.Heads t todo m u) :
    Tidied r₀ exit t₀ seen todo' r' t := by
  have hlive : n ∈ r.live exit t := mem_live hn
  have hflat : e'.Flat := by
    rw [Node.Flat, hresembles.args]
    exact h.flat n hlive e ha.label
  exact {
    ha.flat h.toFlat hlive hflat, hleaves.intact.toProper with
    bound := hleaves.bound h.bound
    memory := ha.mem.trans h.memory
    silent := fun m hm x hx => by
      rw [ha.entry] at hm
      have hne : m ≠ n := by
        rintro rfl
        rcases hm with rfl | rfl
        · exact h.entry_not_mem hn
        · exact h.exit_not_mem hn
      exact h.silent m hm x (ha.label_of_ne hne ▸ hx)
    waiting := fun m hm => by
      obtain ⟨hmem, hlabel, hprev⟩ := h.waiting m (hsub hm)
      exact ⟨hmem, (ha.label_of_ne fun heq => hnot (heq ▸ hm)).trans hlabel,
        (ha.prev m).trans hprev⟩
    resembles := fun m hm x hx => by
      by_cases hmn : m = n
      · subst hmn
        obtain rfl := some.inj (ha.label_self.symm.trans hx)
        obtain ⟨e₀, he₀, h₀⟩ := h.resembles m hm e ha.label
        exact ⟨e₀, he₀, hresembles.trans h₀⟩
      · exact h.resembles m hm x (ha.label_of_ne hmn ▸ hx)
    gone := h.gone
    sub := h.sub
    noted := fun v hv => by
      rw [foldedOf, ha.traits, ← foldedOf]
      exact h.noted v (hreads v ▸ hv)
    origin := fun u hu => (h.origin u (hreads u ▸ hu)).congr (hheads u hu) hsub
    shadows := by
      rw [ha.entry]
      exact h.shadows.trans (ha.shadows h.toWellStructured) (fun _ hm => hm) fun m hm hout =>
        absurd hm hout }

/-- Taking out a node that has been visited. -/
theorem drop (hd : r.Drops r' exit t t' n e p s) (hnot : n ∉ todo)
    (hlast : ∀ m ∈ todo, n ∉ r₀.prevOf m) (hgone : ∃ e₀, r₀.label n = some e₀ ∧
      e₀.Dispensable r₀.mem)
    (hfolded : ∀ v u, r'.foldedOf v = some u → u < r'.vars.size) (hnoted : ∀ v, 0 < r'.readsOf v →
      r'.foldedOf v = none)
    (horigin : ∀ u, 0 < r'.readsOf u → Origin r₀ t₀ seen r' t' todo u) :
    Tidied r₀ exit t₀ seen todo r' t' := by
  have hmem : ∀ m ∈ t'.nodes, m ∈ t.nodes := fun m hm => hd.bypasses.sub.subset hm
  have hin : ∀ m ∈ t.nodes, m ≠ n → m ∈ t'.nodes := fun m hm hne =>
    (mem_cons.mp (hd.bypasses.nodes.mem_iff.mp hm)).resolve_left hne
  exact {
    hd.flat h.toFlat with
    proper := fun m hm x hx => h.proper m (hmem m hm) x (hd.labels m ▸ hx)
    bound := fun m hm x hx => h.bound m (hmem m hm) x (hd.labels m ▸ hx)
    dests := fun m hm x v hx hv => hd.vars ▸ h.dests m (hmem m hm) x v (hd.labels m ▸ hx) hv
    folded := hfolded
    memory := hd.mem_eq.trans h.memory
    silent := fun m hm x hx => h.silent m (hd.bypasses.entry ▸ hm) x (hd.labels m ▸ hx)
    waiting := fun m hm => by
      obtain ⟨hm', hlabel, hprev⟩ := h.waiting m hm
      have hm'' := hin m hm' fun heq => hnot (heq ▸ hm)
      refine ⟨hm'', (hd.labels m).trans hlabel, ?_⟩
      rw [hd.bypasses.edges_back m (mem_live hm''), hprev]
      refine (map_congr_left fun k hk => ?_).trans (List.map_id _)
      have hne : k ≠ n := fun heq => hlast m hm (heq ▸ hk)
      exact if_neg hne
    resembles := fun m hm x hx => h.resembles m (hmem m hm) x (hd.labels m ▸ hx)
    gone := fun m hm hout => by
      by_cases hmn : m = n
      · exact hmn ▸ hgone
      · exact h.gone m hm fun hm' => hout (hin m hm' hmn)
    sub := hd.bypasses.sub.trans h.sub
    noted := hnoted
    origin := horigin
    shadows := by
      refine h.shadows.trans (hd.bypasses.shadows h.toWellStructured hd.kindOf_def hd.plain)
        (fun m hm => hd.bypasses.mem_old hm) fun m hm hout => ?_
      obtain rfl : m = n := by
        by_contra hne
        exact hout (hd.bypasses.mem_new hm hne)
      -- the node is one that control passes through in the old routine as well
      obtain ⟨e₀, he₀, hresembles⟩ :=
        h.resembles m (h.mem_of_plain hd.def_mem hd.kindOf_def hd.plain) e hd.label
      have hkind : r₀.kindOf m = some e₀.kind := kindOf_of_label he₀ rfl
      have hplain : e₀.kind.isPlain = true := hresembles.isPlain.trans hd.plain
      intro holds holds'
      rw [follow_plain hkind hplain, follow_plain hkind hplain] }

theorem ne_mem (hzero : r.readsOf v = 0) : v ≠ r₀.mem := by
  rintro rfl
  have htwo := h.two_le_tally_mem .read
  rw [h.memory] at htwo
  change 2 ≤ r.readsOf r₀.mem at htwo
  omega

theorem ne_mem_of_once (hone : r.writesOf v = 1) : v ≠ r₀.mem := by
  rintro rfl
  have htwo := h.two_le_tally_mem .write
  rw [h.memory] at htwo
  change 2 ≤ r.writesOf r₀.mem at htwo
  omega

omit h in
/-- The result of a node is sent where it has to go. -/
theorem send (h : Tidied r₀ exit t₀ seen (todo ++ [n]) r t)
    (ha : r.Amends r' n e { e with dest := heading r e }) (hnot : n ∉ todo) :
    Tidied r₀ exit t₀ seen todo r' t := by
  have hn := (h.waiting n (by simp)).1
  have hrelabels : r.Relabels r' n e { e with dest := heading r e } :=
    ⟨ha, Or.inl rfl, fun _ => rfl⟩
  have hleaves := leaves_heading h.intact hn ha
  refine h.amend hrelabels hn ⟨rfl, rfl, Or.inl rfl,
    fun hdest => ?_⟩ hleaves (by simp) hnot (fun v => ?_) fun u _ m => ?_
  · unfold heading
    split
    · rfl
    · rename_i hnodecl
      rcases hdest with hnone | hmem | hdecl
      · rw [hnone, map_none]
      · rw [hmem, map_some, h.noted r₀.mem ?_, getD_none]
        have htwo := h.two_le_tally_mem .read
        rw [h.memory] at htwo
        exact Nat.lt_of_lt_of_le Nat.two_pos htwo
      · exact absurd hdecl hnodecl
  · have htally := ha.tally v .read
    rw [count_read_heading] at htally
    exact Nat.add_right_cancel htally
  · by_cases hm : m = n
    · subst hm
      simp [Heads, ha.label_self, if_neg hnot, ha.label, exists_eq_left']
    · simp [Heads, ha.label_of_ne hm, heading_congr ha.traits, hm]

/-- A call whose result nobody reads drops it. -/
theorem dropResult (ha : r.Amends r' n e { e with dest := none }) (hn : n ∈ t.nodes)
    (hnot : n ∉ todo) (hcall : e.kind.isPlainCall = true) (hdest : e.dest = some v)
    (hzero : r.readsOf v = 0) : Tidied r₀ exit t₀ seen todo r' t := by
  have hnodecl := isDeclaration_of_isPlainCall hcall
  have hreads : ∀ w, r'.readsOf w = r.readsOf w := fun w => by
    have htally := ha.tally w .read
    rw [count_read_withDest hnodecl none w] at htally
    exact Nat.add_right_cancel htally
  refine h.amend ⟨ha, Or.inl rfl, fun _ => rfl⟩ hn ⟨rfl, rfl, Or.inl rfl, fun hfixed => ?_⟩
    (Disposed.leaves_muted h.intact hn hcall hdest ha) (fun _ hm => hm) hnot hreads fun u hu m => ?_
  · rw [hdest] at hfixed
    rcases hfixed with hnone | hmem | hdecl
    · cases hnone
    · exact absurd (some.inj hmem) (h.ne_mem hzero)
    · exact absurd (hnodecl.symm.trans hdecl) Bool.false_ne_true
  · by_cases hm : m = n
    · subst hm
      simp only [Heads, if_neg hnot, ha.label_self, ha.label, some.injEq, exists_eq_left', hdest]
      refine iff_of_false (by simp) fun hheads => ?_
      obtain rfl := hheads.2.1
      rw [hreads, hzero] at hu
      exact Nat.lt_irrefl 0 hu
    · simp only [Heads, ha.label_of_ne hm, heading_congr ha.traits]

/-- A copy of a literal becomes its definition. -/
theorem toConst {value : Literal} (hn : n ∈ t.nodes) (he : r.label n = some e)
    (hnot : n ∉ todo) (hkind : e.kind = .op .copy) (hargs : e.args = [.lit value]) :
    Tidied r₀ exit t₀ seen todo (r.alter n ({ · with kind := .op .const })) t := by
  have hrelabels := relabels_toConst he hkind
  refine h.amend hrelabels hn ⟨rfl, rfl, Or.inr ⟨hkind, rfl, value, hargs⟩, fun _ => rfl⟩
    (leaves_toConst h.intact hn he hkind) (fun _ hm => hm) hnot (fun _ => rfl) fun u _ m => ?_
  by_cases hm : m = n
  · subst hm
    simp [Heads, if_neg hnot, hrelabels.label_self, he, hkind]
  · simp only [Heads, hrelabels.label_of_ne hm]
    exact Iff.rfl

omit h in
/-- Reads are only released. -/
theorem readsOf_le (hd : r.Drops r' exit t t' n e p s) (v : VarId) :
    r'.readsOf v ≤ r.readsOf v := by
  have htally : r.readsOf v = r'.readsOf v + _ := hd.tally v .read
  omega

theorem mem_drop (hd : r.Drops r' exit t t' n e p s) : m ∈ t'.nodes ↔ m ∈ t.nodes ∧ m ≠ n := by
  have hnodup := hd.bypasses.nodes.nodup_iff.mp h.nodup_nodes
  rw [hd.bypasses.nodes.mem_iff, mem_cons]
  constructor
  · exact fun hm => ⟨Or.inr hm, fun heq => (nodup_cons.mp hnodup).1 (heq ▸ hm)⟩
  · exact fun hm => hm.1.resolve_left hm.2

/-- Taking out a node whose result goes to no variable that is still read. -/
theorem remove (hd : r.Drops r' exit t t' n e p s) (hnot : n ∉ todo)
    (hlast : ∀ m ∈ todo, n ∉ r₀.prevOf m) (hgone : ∃ e₀, r₀.label n = some e₀ ∧
      e₀.Dispensable r₀.mem) (htraits : ∀ v, r'.traits v = r.traits v)
    (hquiet : ∀ u, 0 < r'.readsOf u → ¬r.Heads t todo n u) : Tidied r₀ exit t₀ seen todo r' t' := by
  have hfolded : ∀ v, r'.foldedOf v = r.foldedOf v := fun v => by rw [foldedOf, htraits, foldedOf]
  refine h.drop hd hnot hlast hgone (fun v u hu => ?_) (fun v hv => ?_) fun u hu => ?_
  · rw [hd.vars]
    exact h.folded v u (hfolded v ▸ hu)
  · rw [hfolded]
    exact h.noted v (Nat.lt_of_lt_of_le hv (readsOf_le hd v))
  · refine (h.origin u (Nat.lt_of_lt_of_le hu (readsOf_le hd u))).congr (fun m => ?_) fun _ hm => hm
    by_cases hm : m = n
    · subst hm
      exact iff_of_false (fun hheads => ((h.mem_drop hd).mp hheads.1).2 rfl) (hquiet u hu)
    · simp [Heads, h.mem_drop hd, hd.labels, heading_congr htraits, hm]

omit h

section Fold

variable (h : Tidied r₀ exit t₀ seen todo r t)
include h

/-- A variable is written once, by a node whose result goes there. -/
theorem eq_of_heads (honce : r.writesOf u = 1) (hsame : ∀ m, r.Heads t todo m u → r₀.Writes t₀ m u)
    (hn : n ∈ t.nodes) (he : r.label n = some e) (hwrite : (u, .write) ∈ e.accesses)
    (hheads : r.Heads t todo m u) : m = n := by
  have hm := hheads.1
  have hwrites : r.Writes t m u := by
    by_cases htodo : m ∈ todo
    · obtain ⟨-, e₀, he₀, hwrites⟩ := hsame m hheads
      exact ⟨hm, e₀, (h.waiting m htodo).2.1.trans he₀, hwrites⟩
    · exact (heads_iff_writes htodo).mp hheads
  obtain ⟨em, hem, -⟩ := h.exists_label (mem_live hm)
  exact h.eq_of_once (mem_live hn) he
    (mem_live hm) hem hwrite ((writes_iff hm hem).mp hwrites) honce

/-- A variable that is written once and read once, by a node, is written by another one. -/
theorem exists_writer (hn : n ∈ t.nodes) (he : r.label n = some e)
    (hnodecl : e.kind.isDeclaration = false) (hread : .var x ∈ e.args) (hwrites : r.writesOf x = 1)
    (hreads : r.readsOf x = 1) :
    ∃ d ed, d ∈ t.nodes ∧ r.label d = some ed ∧ (x, .write) ∈ ed.accesses ∧
    ed.kind.isDeclaration = false := by
  have hlive : n ∈ r.live exit t := mem_live hn
  have hmem : x ≠ r.mem := h.memory ▸ h.ne_mem_of_once hwrites
  have htally := h.tally_eq x .write
  rw [if_neg hmem, show r.tally x .write = 1 from hwrites] at htally
  have hpos : 0 < ((r.live exit t).flatMap r.accessesOf).count (x, .write) := by omega
  obtain ⟨d, hd, haccess⟩ := mem_flatMap.mp (count_pos_iff.mp hpos)
  obtain ⟨ed, hed, hflat⟩ := h.exists_label hd
  rw [accessesOf_flat hed hflat] at haccess
  refine ⟨d, ed, ?_, hed, haccess, ?_⟩
  · by_contra hout
    rw [mem_cons, mem_cons] at hd
    rw [(h.silent d (by tauto) ed hed).2] at haccess
    cases haccess
  · -- a declaration would be a second node that reads the variable
    cases hk : ed.kind with
    | declare role =>
      have hread' : (x, .read) ∈ ed.accesses := by
        obtain ⟨hdest, hstorage⟩ := write_mem_accesses_iff.mp haccess
        unfold Node.accesses
        rw [hk] at hstorage
        rw [hk, hdest]
        cases role <;> simp_all
      obtain rfl := h.eq_of_once hlive he hd hed (mem_accesses_of_arg hread) hread' hreads
      rw [he, some.injEq] at hed
      rw [hed, hk] at hnodecl
      cases hnodecl
    | define | enter | close | branch | call | ret | yield | step | goto | op => rfl

/-- An operation on values may go. -/
theorem dispensable {code : Opcode} (hn : n ∈ t.nodes) (he : r.label n = some e)
    (hkind : e.kind = .op code) (hdest : e.dest = some u) (hne : u ≠ r₀.mem) :
    ∃ e₀, r₀.label n = some e₀ ∧ e₀.Dispensable r₀.mem := by
  obtain ⟨e₀, he₀, hresembles⟩ := h.resembles n hn e he
  have hop : ∃ code₀, e₀.kind = .op code₀ := by
    rcases hresembles.kind with hsame | ⟨hcopy, -⟩
    · exact ⟨code, hsame ▸ hkind⟩
    · exact ⟨_, hcopy⟩
  obtain ⟨code₀, hcode₀⟩ := hop
  have hfixed := hresembles.dest
  rw [hdest] at hfixed
  cases hdest₀ : e₀.dest with
  | none =>
    rw [hdest₀] at hfixed
    cases hfixed (Or.inl rfl)
  | some v₀ =>
    refine ⟨e₀, he₀, Or.inr ⟨code₀, v₀, hcode₀, hdest₀, ?_⟩⟩
    rintro rfl
    rw [hdest₀] at hfixed
    exact hne (some.inj (hfixed (Or.inr (Or.inl rfl))))

/-- What a copy that is taken out has written before, and how the variable it writes comes from
there. -/
theorem exists_root (hn : n ∈ t.nodes) (he : r.label n = some e) (hnot : n ∉ todo)
    (hwrite : (u, .write) ∈ e.accesses) (honce : r.writesOf u = 1) (hread : 0 < r.readsOf u) :
    (∀ m e, seen m → r₀.label m = some e → .var u ∉ e.args) ∨
      (∃ y, (∀ m, r₀.Writes t₀ m y ↔ m = n) ∧ r₀.Stems t₀ y u) ∧ (∀ m, r.Heads t todo m u ↔ m = n) ∧
        ∀ m ∈ todo, ¬r₀.Writes t₀ m u := by
  have hself : r.Heads t todo n u := (heads_iff_writes hnot).mpr ((writes_iff hn he).mpr hwrite)
  cases h.origin u hread with
  | same hsame =>
    have hheads : ∀ m, r.Heads t todo m u ↔ m = n := fun m =>
      ⟨h.eq_of_heads honce (fun m => (hsame m).mp) hn he hwrite, fun heq => heq ▸ hself⟩
    refine Or.inr ⟨⟨u, fun m => (hsame m).symm.trans (hheads m), .refl⟩, hheads,
      fun m hm hwrites => hnot ?_⟩
    exact (hheads m).mp ((hsame m).mpr hwrites) ▸ hm
  | taken hdescends honly hheads hpassed =>
    obtain rfl := (hheads n).mp hself
    exact Or.inr ⟨⟨_, honly, hdescends.to_reflTransGen⟩, hheads, hpassed⟩
  | unread hnone => exact Or.inl hnone

omit h in
/-- What stands in front of a node in the stream is still to be visited. -/
theorem mem_of_ordered (hnodup : t₀.nodes.Nodup) (hpre : todo ++ [n] <+: t₀.nodes)
    (h : [d, n].Sublist t₀.nodes) : d ∈ todo := by
  have hlt := idxOf_lt_of_sublist hnodup h
  obtain ⟨rest, hrest⟩ := hpre
  rw [← hrest] at hlt hnodup
  have hn : n ∉ todo := fun hmem => by
    rw [List.append_assoc, nodup_append] at hnodup
    exact hnodup.2.2 n hmem n (by simp) rfl
  by_contra hd
  rw [List.append_assoc, idxOf_append_of_notMem hd, idxOf_append_of_notMem hn] at hlt
  simp only [cons_append, nil_append, idxOf_cons_self, Nat.add_zero] at hlt
  omega

omit h in
/-- Where results go that go neither to the source nor to the destination of a copy that is folded.
-/
theorem heading_fold (hfolded : ∀ w, r'.foldedOf w = if w = x then some u else r.foldedOf w)
    (e : Node) (hne : e.dest ≠ some x ∨ e.kind.isDeclaration = true) :
    heading r' e = heading r e := by
  cases hdecl : e.kind.isDeclaration with
  | true => rw [heading, heading, if_pos hdecl, if_pos hdecl]
  | false =>
    rw [hdecl] at hne
    cases hdest : e.dest with
    | none => rw [heading_eq_none hdest, heading_eq_none hdest]
    | some v =>
      have hv : v ≠ x := by
        rintro rfl
        exact hne.elim (fun hne => hne hdest) fun hfalse => by cases hfalse
      rw [heading_eq_some hdest hdecl, heading_eq_some hdest hdecl, hfolded, if_neg hv]

variable (htraceable : r₀.Traceable t₀ seen) (hnodup : t₀.nodes.Nodup)
  (hd : r.Drops r' exit t t' n e p s) (hn : n ∈ t.nodes) (hpre : todo ++ [n] <+: t₀.nodes)
  (hnot : n ∉ todo) (hkind : e.kind = .op .copy) (hargs : e.args = [.var x])
  (hdest : e.dest = some u) (hwx : r.writesOf x = 1) (hrx : r.readsOf x = 1)
  (hwu : r.writesOf u = 1) (hfolded : ∀ w, r'.foldedOf w = if w = x then some u else r.foldedOf w)
include htraceable hnodup hd hn hpre hnot hkind hargs hdest hwx hrx hwu hfolded

/-- The destination of a copy that is folded gets its value from the node that writes the source. -/
theorem origin_fold (hread : 0 < r.readsOf u) : Origin r₀ t₀ seen r' t' todo u := by
  have hwrite : (u, .write) ∈ e.accesses :=
    write_mem_accesses_iff.mpr ⟨hdest, by rw [hkind]; simp⟩
  have he := hd.label
  rcases h.exists_root hn he hnot hwrite hwu hread with hnone | ⟨⟨y, honly, hstems⟩,
    hheads, hpassed⟩
  · exact .unread hnone
  obtain ⟨e₀, he₀, hresembles⟩ := h.resembles n hn e he
  have hlabel : ∃ e, r₀.label n = some e ∧ e.kind = .op .copy ∧ e.args = [.var x] := by
    refine ⟨e₀, he₀, ?_, hresembles.args ▸ hargs⟩
    rcases hresembles.kind with hsame | ⟨hcopy, -⟩
    · exact hsame ▸ hkind
    · exact hcopy
  have hlocals : x ≠ r₀.mem ∧ y ≠ r₀.mem := by
    refine ⟨h.ne_mem_of_once hwx, ?_⟩
    rintro rfl
    obtain ⟨-, e₁, he₁, hdest₁, -⟩ := (honly n).mpr rfl
    obtain rfl := some.inj (he₁.symm.trans he₀)
    have hsame := hresembles.dest (Or.inr (Or.inl hdest₁))
    rw [hdest, hdest₁] at hsame
    exact h.ne_mem_of_once hwu (some.inj hsame)
  by_cases hseen : seen n
  · cases h.origin x (by omega) with
    | unread hnone =>
      obtain ⟨e₁, he₁, -, hargs₁⟩ := hlabel
      exact absurd (by simp [hargs₁]) (hnone n e₁ hseen he₁)
    | taken hdescends _ _ hpassedx =>
      -- then the source has been visited, although it is written in front of the copy
      obtain ⟨z, hz⟩ : ∃ z, ∀ m, r₀.Writes t₀ m x ↔ m = z := by
        cases hdescends with
        | single hcopies | tail _ hcopies =>
          obtain ⟨_, c, hcopies⟩ := hcopies
          exact ⟨c, hcopies.only⟩
      have hz' := mem_of_ordered hnodup hpre (htraceable.ordered hseen ⟨hlocals, hlabel, hz, honly⟩)
      exact absurd ((hz z).mpr rfl) (hpassedx z hz')
    | same hsame =>
      obtain ⟨d, ed, hdm, hed, hdwrite, hdnodecl⟩ :=
        h.exists_writer hn he (by rw [hkind]; rfl) (by simp [hargs]) hwx hrx
      obtain ⟨hddest, hdstorage⟩ := write_mem_accesses_iff.mp hdwrite
      have hunknown : r.foldedOf x = none := h.noted x (by omega)
      have hdheads : r.Heads t todo d x := by
        refine ⟨hdm, ed, hed, ?_, hdstorage⟩
        split
        · rw [heading_eq_some hddest hdnodecl, hunknown, getD_none]
        · exact hddest
      have hsource : ∀ m, r₀.Writes t₀ m x ↔ m = d := fun m =>
        ⟨fun hwrites => h.eq_of_heads hwx (fun m => (hsame m).mp) hdm hed hdwrite
          ((hsame m).mpr hwrites), fun heq => heq ▸ (hsame d).mp hdheads⟩
      have hcopies : r₀.Copies t₀ d n x y := ⟨hlocals, hlabel, hsource, honly⟩
      have hdtodo := mem_of_ordered hnodup hpre (htraceable.ordered hseen hcopies)
      have hdn : d ≠ n := fun heq => hnot (heq ▸ hdtodo)
      refine .taken (x := x) (d := d) (.head' ⟨d, n, hcopies⟩ hstems) hsource
        (fun m => ⟨fun hnew => ?_, fun heq => ?_⟩) hpassed
      · obtain ⟨hm, em, hem, hnew, hstorage⟩ := hnew
        obtain ⟨hm, hmn⟩ := (h.mem_drop hd).mp hm
        rw [hd.labels] at hem
        by_contra hmd
        -- it writes neither the source nor did its result go to the destination
        refine hmn ((hheads m).mp ⟨hm, em, hem, ?_, hstorage⟩)
        by_cases hmtodo : m ∈ todo
        · have hemdest : em.dest ≠ some x := fun hemdest => hmd ((hsource m).mp ⟨h.sub.subset hm,
            em, (h.waiting m hmtodo).2.1.symm.trans hem, hemdest, hstorage⟩)
          rw [if_pos hmtodo] at hnew ⊢
          rwa [heading_fold hfolded em (Or.inl hemdest)] at hnew
        · rwa [if_neg hmtodo] at hnew ⊢
      · subst heq
        refine ⟨(h.mem_drop hd).mpr ⟨hdm, hdn⟩, ed, (hd.labels m).trans hed, ?_, hdstorage⟩
        rw [if_pos hdtodo, heading_eq_some hddest hdnodecl, hfolded, if_pos rfl, getD_some]
  · -- a copy that is not seen writes nothing that is read
    have hnone : ∀ m e, seen m → r₀.label m = some e → .var y ∉ e.args := fun m em hm hem hreads =>
      hseen (htraceable.written hlocals.2 honly hm hem hreads)
    exact .unread (htraceable.unread hstems hnone)

/-- A copy is taken out, and its destination takes over the definition of its source. -/
theorem fold (hlast : ∀ m ∈ todo, n ∉ r₀.prevOf m) : Tidied r₀ exit t₀ seen todo r' t' := by
  have he := hd.label
  have hunread : r'.readsOf x = 0 := by
    have htally : r.readsOf x = r'.readsOf x + _ := hd.tally x .read
    have hpos := count_pos_iff.mpr (mem_accesses_of_arg (d := e) (v := x) (by simp [hargs]))
    omega
  have hread : ∀ w, 0 < r'.readsOf w → w ≠ x ∧ 0 < r.readsOf w := fun w hw =>
    ⟨by rintro rfl; omega, Nat.lt_of_lt_of_le hw (readsOf_le hd w)⟩
  refine h.drop hd hnot hlast (h.dispensable hn he hkind hdest (h.ne_mem_of_once hwu))
    (fun w v hv => ?_) (fun w hw => ?_) fun w hw => ?_
  · rw [hd.vars]
    rw [hfolded] at hv
    split at hv
    · exact some.inj hv ▸ h.dests n hn e u he hdest
    · exact h.folded w v hv
  · rw [hfolded, if_neg (hread w hw).1]
    exact h.noted w (hread w hw).2
  · by_cases hwu' : w = u
    · subst hwu'
      exact h.origin_fold htraceable hnodup hd hn hpre hnot hkind hargs hdest hwx hrx hwu
        hfolded (hread w hw).2
    · refine (h.origin w (hread w hw).2).congr (fun m => ?_) fun _ hm => hm
      by_cases hm : m = n
      · subst hm
        refine iff_of_false (fun hheads => ((h.mem_drop hd).mp hheads.1).2 rfl) fun hheads =>
          hwu' ?_
        obtain ⟨-, em, hem, hemdest, -⟩ := (heads_iff_writes hnot).mp hheads
        obtain rfl := some.inj (he.symm.trans hem)
        exact some.inj (hemdest.symm.trans hdest)
      · simp only [Heads, h.mem_drop hd, hd.labels, ne_eq, hm, not_false_iff, and_true]
        refine and_congr_right fun _ => exists_congr fun em => and_congr_right fun _ =>
          and_congr_left fun _ => ?_
        split
        · by_cases hemdest : em.dest = some x ∧ em.kind.isDeclaration = false
          · rw [heading_eq_some hemdest.1 hemdest.2, heading_eq_some hemdest.1 hemdest.2, hfolded,
              if_pos rfl, h.noted x (by omega), getD_some, getD_none]
            exact iff_of_false (fun heq => hwu' (some.inj heq).symm) fun heq =>
              (hread w hw).1 (some.inj heq).symm
          · rw [heading_fold hfolded em (by
              rw [not_and_or, Bool.not_eq_false] at hemdest
              exact hemdest)]
        · exact Iff.rfl

end Fold

end Tidied

end Routine

namespace DeadCode

open Routine

variable {r₀ r : Routine} {exit n : NodeId} {t₀ : Strand} {seen : NodeId → Prop}
  {l : List NodeId} {verdict : Verdict} {sweep : NodeId → NodeId → Pass Nat} {w : Work} {t : Strand}

/-- Carrying out the verdict on a node keeps track of where variables get their values from. -/
theorem yields_carryOut_tidied (htraceable : r₀.Traceable t₀ seen) (hnodup : t₀.nodes.Nodup)
    (hyields : ∀ m e, r₀.label m = some e → e.kind = .yield →
      e.dest = none) (hpre : l ++ [n] <+: t₀.nodes)
    (hlast : ∀ m ∈ l, m ≠ n ∧ n ∉ r₀.prevOf m) (h : Tidied r₀ exit t₀ seen l w.routine t)
    (hn : n ∈ t.nodes)
    (he : w.routine.label n = some e) (hopen : ∀ opener, e.kind ≠ .close opener)
    (hjudged : Judged w.routine n e verdict) :
    Yields (carryOut sweep n verdict) w fun _ w' =>
    ∃ t', Tidied r₀ exit t₀ seen l w'.routine t' := by
  have hnot : n ∉ l := fun hmem => (hlast n hmem).1 rfl
  have hprev : ∀ m ∈ l, n ∉ r₀.prevOf m := fun m hm => (hlast m hm).2
  have hlive : n ∈ w.routine.live exit t := mem_live hn
  have hflat := h.flat n hlive e he
  cases hjudged with
  | keep => exact ⟨t, h⟩
  | descend hclose => exact absurd hclose (hopen _)
  | dropResult hcall hdest hreads =>
    have hnodecl := isDeclaration_of_isPlainCall hcall
    refine yields_bind.mpr (Pass.yields_lift.mpr (yields_setDest he hdest hnodecl (written_pos
      h.intact hn he hdest hnodecl) (fun u hu => by cases hu) fun r' ha => yields_pure.mpr ⟨t, ?_⟩))
    exact h.dropResult ha hn hnot hcall hdest hreads
  | unlink hdecl hdest hreads hwrites =>
    have hnone : e.accesses = [] := by
      rw [Node.accesses, ((h.proper n hn e he).storage hdecl).2, hdecl, hdest]
      rfl
    simp only [carryOut, unlink, yields_bind, Pass.yields_note, Pass.yields_lift]
    refine yields_drop h.toWellStructured hlive he (by rw [hdecl]; rfl) (hnone ▸ .refl _)
        fun r' t' p s hd htraits =>
      yields_pure.mpr ⟨t', h.remove hd hnot hprev ?_ htraits fun u _ hheads => ?_⟩
    · obtain ⟨e₀, he₀, hresembles⟩ := h.resembles n hn e he
      refine ⟨e₀, he₀, Or.inl ?_⟩
      rcases hresembles.kind with hsame | ⟨-, hconst, -⟩
      · exact hsame ▸ hdecl
      · rw [hdecl] at hconst
        cases hconst
    · obtain ⟨-, e', he', -, hstorage⟩ := hheads
      exact hstorage (some.inj (he.symm.trans he') ▸ hdecl)
  | rename hcopy hargs hdest honce hwrites =>
    rename_i source dest
    refine yields_rename h.intact hn he hcopy hargs hdest fun w₁ hsource _ h₁ => ?_
    rw [accessesOf_flat (r := w.routine.alterVar _ _) he hflat] at h₁
    have hnoted :
        (w.routine.alterVar source ({ · with foldedInto := some dest })).Adds w.routine [] := by
      refine (Adds.alterVar hsource ?_).symm
      exact fun _ => rfl
    have hadds := h₁.adds.trans hnoted
    rw [append_nil] at hadds
    simp only [unlink, yields_bind, Pass.yields_note, Pass.yields_lift]
    refine yields_drop h.toWellStructured hlive he (by rw [hcopy]; rfl) hadds
        fun r' t' p s hd htraits =>
      ⟨t', h.fold htraceable hnodup hd hn hpre hnot hcopy hargs hdest honce.1 honce.2.1 hwrites
        (fun v => ?_) hprev⟩
    rw [← foldedOf_alterVar hsource, foldedOf, htraits, h₁.traits, ← foldedOf]
  | toConst hcopy hargs hnumeric =>
    refine yields_bind.mpr
      (Pass.yields_lift.mpr (yields_setKind.mpr ⟨lt_of_label he, yields_pure.mpr ⟨t, ?_⟩⟩))
    exact h.toConst hn he hnot hcopy hargs
  | remove hplain hkind hdest hreads =>
    refine yields_bind.mpr
      (Pass.yields_lift.mpr (yields_uncountNode (.refl _) (h.intact.nested_eq hlive)
      (fun v access => h.intact.count_le hlive v access) fun r₁ h₁ => ?_))
    rw [nil_append, accessesOf_flat he hflat] at h₁
    simp only [unlink, yields_bind, Pass.yields_note, Pass.yields_lift]
    refine yields_drop h.toWellStructured hlive he hplain h₁.adds fun r' t' p s hd htraits =>
      yields_pure.mpr ⟨t',
        h.remove hd hnot hprev ?_ (fun v => (htraits v).trans (h₁.traits v)) fun u hu hheads => ?_⟩
    · have hop : ∃ code, e.kind = .op code := by
        cases hk : e.kind with
        | op code => exact ⟨code, rfl⟩
        | yield =>
          -- a yield delivers nothing
          obtain ⟨e₀, he₀, hresembles⟩ := h.resembles n hn e he
          rcases hresembles.kind with hsame | ⟨-, hconst, -⟩
          · have hnone := hyields n e₀ he₀ (hsame ▸ hk)
            rw [hresembles.dest (Or.inl hnone), hnone] at hdest
            cases hdest
          · rw [hk] at hconst
            cases hconst
        | define | enter | close | branch | call | declare | ret | step | goto =>
          simp_all [NodeKind.isPlain, NodeKind.isCall]
      obtain ⟨code, hop⟩ := hop
      exact h.dispensable hn he hop hdest (h.ne_mem hreads)
    · obtain ⟨-, e', he', hdest', -⟩ := (heads_iff_writes hnot).mp hheads
      obtain rfl := some.inj (he.symm.trans he')
      rw [some.inj (hdest.symm.trans hdest')] at hreads
      exact absurd (Nat.lt_of_lt_of_le hu (Tidied.readsOf_le hd u))
        (by rw [hreads]; exact Nat.lt_irrefl 0)

/-- The sweep keeps track of where variables get their values from. -/
theorem sweeps_tidied (hcarries : r₀.Carries exit t₀) (htraceable : r₀.Traceable t₀ seen)
    (hyields : ∀ m e, r₀.label m = some e → e.kind = .yield → e.dest = none) :
    Sweeps r₀ exit t₀ (fun l r => ∃ t, Tidied r₀ exit t₀ seen l r t) fun l n r =>
      ∃ t, Tidied r₀ exit t₀ seen l r t ∧ Stands r₀ r t n where
  stand := by
    rintro l n r ⟨t, h, hn⟩
    refine ⟨t, h.intact, fun m hm => ?_⟩
    rcases mem_append.mp hm with hm | hm
    · exact h.stands hm
    · exact mem_singleton.mp hm ▸ hn
  pass := by
    rintro l n r o - - - ⟨t, h, -⟩
    exact ⟨t, h⟩
  sends := by
    rintro l n r hpre ⟨t, h⟩
    obtain ⟨hn, hprev, hkind, hbound⟩ := h.stands (m := n) (by simp)
    obtain ⟨e, he, -⟩ := h.intact.exists_label hn
    refine (yields_redirect h.intact hn he).mono fun _ r' ha =>
      ⟨t, h.send ha fun hmem => ?_, hn, (ha.prev n).trans hprev, ?_, ?_⟩
    · exact (forwards_of_leading hcarries hpre n hmem).1 rfl
    · rw [← hkind, kindOf, ha.label_self, kindOf, he]
      rfl
    · exact (boundAt_heading ha n).trans hbound
  carries := by
    rintro l n e verdict sweep w hpre - ⟨t, h, hn⟩ he hopen hjudged
    exact yields_carryOut_tidied htraceable hcarries.nodup_nodes hyields hpre
      (forwards_of_leading hcarries hpre) h hn.mem he hopen hjudged

/-- What the sweep makes of a routine whose variables have not been folded. -/
theorem yields_backward_tidied (h : w.routine.Flat exit t) (hregular : w.routine.Regular t)
    (hsilent : ∀ m, m = w.routine.entry ∨ m = exit → ∀ e, w.routine.label m = some e → e.accesses =
      []) (hunfolded : ∀ v, w.routine.foldedOf v = none) (htraceable : w.routine.Traceable t seen)
    (hyields : ∀ m e, w.routine.label m = some e → e.kind = .yield → e.dest = none) :
    Yields backward w fun _ w' => ∃ t', Tidied w.routine exit t seen [] w'.routine t' := by
  have hheading : ∀ e, heading w.routine e = e.dest := fun e => by
    simp [heading, hunfolded]
  have hstart : Tidied w.routine exit t seen t.nodes w.routine t := {
    h, hregular with
    memory := rfl
    silent := fun m hm e he => ⟨he, hsilent m hm e he⟩
    waiting := fun m hm => ⟨hm, rfl, rfl⟩
    resembles := fun m _ e he => ⟨e, he, rfl, rfl, Or.inl rfl, fun _ => rfl⟩
    gone := fun m hm hout => absurd hm hout
    sub := .refl _
    noted := fun v _ => hunfolded v
    origin := fun u _ => .same fun m => by simp only [Heads, hheading, ite_self, Writes]
    shadows := ⟨rfl, mem_cons_self, fun m hm holds => .arrive fun k hk => h.follow_mem hm hk⟩ }
  exact (sweeps_tidied h.toCarries htraceable hyields).yields_backward
    (h.toWellStructured.intact hregular.toProper) hregular.bound ⟨t, hstart⟩

end DeadCode

end CoroutineIR
