import CoroutineIR.Proofs.Access
import CoroutineIR.Proofs.Linking
import CoroutineIR.Proofs.Structure

/-!
# Outlines

A sequence of calls to the builder describes a tree of statements: each call adds a statement to the
innermost open region, or opens, divides or closes one. The outline follows the calls without any
edges. It numbers the nodes in the order in which they are created, the closing node of a region
right after its opening node, and keeps for every open region the arm that was finished and the arm
under construction.
-/

namespace CoroutineIR

open List Option Strand NodeKind Node

/-- A call to the builder. -/
inductive Instruction where
  | declare (role : Role) (ty : Ty) (name : String) (refCounted : Bool)
  | tmp (ty : Option Ty)
  | assign (dest : Option VarId) (code : Opcode) (ty : Ty) (args : List Operand)
  | call (dest : Option VarId) (sig : Signature) (args : List Operand)
  | callIndirect (dest : Option VarId) (sig : Signature) (args : List Operand)
  | spawn (sig : Signature) (args : List Operand)
  | spawnIndirect (dest : Option VarId) (sig : Signature) (args : List Operand)
  | yieldNow
  | ret (args : List Operand)
  | block
  | loop
  | cond (condition : Operand)
  | otherwise
  | close
  | branch (target : NodeId)
  | branchIf (condition : Operand) (target : NodeId)

namespace Instruction

/-- The call carried out. -/
def run (types : Registry) : Instruction → Build Unit
  | declare role ty name refCounted => do let _ ← Build.declare role ty name refCounted
  | tmp ty => do let _ ← Build.tmp ty
  | assign dest code ty args => do let _ ← Build.assign dest code ty args
  | call dest sig args => do let _ ← Build.call types .direct dest sig args
  | callIndirect dest sig args => do let _ ← Build.call types .indirect dest sig args
  | spawn sig args => do let _ ← Build.call types .spawn none sig args
  | spawnIndirect dest sig args => do let _ ← Build.call types .spawnIndirect dest sig args
  | yieldNow => Build.yieldNow
  | ret args => Build.ret args
  | block => do let _ ← Build.enter .block []
  | loop => do let _ ← Build.enter .loop []
  | cond condition => do let _ ← Build.enter .cond [condition]
  | otherwise => Build.otherwise
  | close => Build.close
  | branch target => Build.branch target
  | branchIf condition target => Build.branchIf condition target

/-- The operands of a call. -/
def operands : Instruction → List Operand
  | assign _ _ _ args | call _ _ args | callIndirect _ _ args | spawn _ args
  | spawnIndirect _ _ args | ret args => args
  | cond condition | branchIf condition _ => [condition]
  | _ => []

/-- The destination of a call. -/
def dest : Instruction → Option VarId
  | assign dest _ _ _ | call dest _ _ | callIndirect dest _ _ | spawnIndirect dest _ _ => dest
  | _ => none

/-- How many variables a call creates. -/
def creates : Instruction → Nat
  | declare .. | tmp _ => 1
  | _ => 0

/-- The operands are literals or variables below `vars`, and the destination is such a variable. -/
def ScopedIn (vars : Nat) (i : Instruction) : Prop :=
  (∀ a ∈ i.operands, a.node? = none ∧ ∀ v, a = .var v → v < vars) ∧ ∀ v ∈ i.dest, v < vars

/-- Every call only mentions variables created by the calls before it. -/
def Scoped : Nat → List Instruction → Prop
  | _, [] => True
  | vars, i :: rest => i.ScopedIn vars ∧ Scoped (vars + i.creates) rest

instance (vars : Nat) : (a : Operand) → Decidable (a.node? = none ∧ ∀ v, a = .var v → v < vars)
  | .lit _ => isTrue (by simp)
  | .var v => decidable_of_iff (v < vars) (by simp)
  | .node _ => isFalse (by simp)

instance (vars : Nat) (i : Instruction) : Decidable (i.ScopedIn vars) :=
    inferInstanceAs (Decidable (_ ∧ _))

instance decidableScoped : (vars : Nat) → (calls : List Instruction) → Decidable (Scoped vars calls)
  | _, [] => isTrue trivial
  | vars, i :: rest => @instDecidableAnd _ _ _ (decidableScoped (vars + i.creates) rest)

/-- Whether a call opens a region. -/
def opens : Instruction → Bool
  | block | loop | cond _ => true
  | _ => false

/-- Whether a call closes a region. -/
def closes : Instruction → Bool
  | close => true
  | _ => false

end Instruction

/-- An open region: the first arm of a conditional once the second has been started, and the arm
under construction. -/
structure Scope where
  opener : NodeId
  closer : NodeId
  first : Option Strand
  sofar : Strand

namespace Scope

/-- The slot at which the arm under construction starts. -/
def source (l : Scope) : Port := (l.opener, if l.first.isSome then 1 else 0)

/-- The slot at which the arm under construction will arrive at the end of the region. -/
def target (l : Scope) : Port := (l.closer, if l.first.isSome then 1 else 0)

/-- The slot from which the arm under construction goes on. -/
def port (l : Scope) : Port := l.sofar.exitPort l.source

/-- The wires laid inside the region. -/
def wires (l : Scope) : List Wire :=
  (l.first.elim [] fun a => a.wires (l.opener, 0) (l.closer, 0)) ++ l.sofar.openWires l.source

/-- The nodes of the region and those in it. -/
def ids (l : Scope) : List NodeId :=
  l.opener :: l.closer :: (l.first.elim [] Strand.nodes ++ l.sofar.nodes)

/-- The region as it is closed now. -/
def closed (l : Scope) : Strand :=
  match l.first with
  | none => .region l.opener l.closer l.sofar .done
  | some a => .fork l.opener l.closer a l.sofar .done

end Scope

/-- The wires that lead to the opening node of a region, given the regions around it. -/
def approach (opener : NodeId) : List Scope → List Wire
  | [] => []
  | l :: outer => approach l.opener outer ++ l.wires ++ [(l.port, (opener, 0))]

/-- What a sequence of calls describes. -/
structure Outline where
  /-- What each node does, in the order of creation. -/
  contents : List Node
  /-- The innermost open region. -/
  inner : Scope
  /-- The open regions around it, innermost first. The last is the body. -/
  outer : List Scope
  /-- The number of variables. -/
  vars : Nat

theorem Node.accesses_marked (d : Node) : d.marked.accesses = d.accesses := by
  obtain ⟨kind, ty, dest, args, next, prev⟩ := d
  cases kind <;> cases dest <;> rfl

theorem Node.isConditional_marked (d : Node) :
    d.marked.kind.isConditional = d.kind.isConditional := by
  obtain ⟨kind, ty, dest, args, next, prev⟩ := d
  cases kind with
  | enter form region => cases form <;> rfl
  | define | declare | close | branch | call | ret | yield | step | goto | op => rfl

namespace Outline

/-- The opening nodes of the open regions, innermost first. -/
def opened (o : Outline) : List NodeId := (o.inner :: o.outer).map Scope.opener

/-- What a node does. -/
def kinds (o : Outline) (n : NodeId) : Option NodeKind := o.contents[n]?.map Node.kind

/-- The wires laid so far, in the order in which they are laid. -/
def wires (o : Outline) : List Wire := approach o.inner.opener o.outer ++ o.inner.wires

/-- The outline of an empty body. -/
def start (name : String) (sig : Signature) : Outline where
  contents := [.bare (.define name sig ⟨1, sig.suspends⟩), .bare (.close 0)]
  inner := ⟨0, 1, none, .done⟩
  outer := []
  vars := 1

/-- One more node at the end of the innermost region. -/
def add (o : Outline) (d : Node) : Outline :=
  { o with
    contents := o.contents ++ [d]
    inner := { o.inner with sofar := o.inner.sofar.append (.leaf o.contents.length .done) } }

/-- The open regions marked as suspending. -/
def mark (o : Outline) : Outline :=
  { o with contents := o.contents.mapIdx fun n d => if n ∈ o.opened then d.marked else d }

/-- A new region at the end of the innermost one. -/
def enter (o : Outline) (form : Form) (args : List Operand) : Outline :=
  { o with
    contents := o.contents ++
      [.detached (.enter form ⟨o.contents.length + 1, false⟩) none none args,
        .bare (.close o.contents.length)]
    inner := ⟨o.contents.length, o.contents.length + 1, none, .done⟩
    outer := o.inner :: o.outer }

/-- The second arm of the innermost region started. -/
def otherwise (o : Outline) : Outline :=
  { o with inner := { o.inner with first := some o.inner.sofar, sofar := .done } }

/-- The innermost region closed, unless it is the body. -/
def close (o : Outline) : Outline :=
  match o.outer with
  | [] => o
  | l :: outer => { o with inner := { l with sofar := l.sofar.append o.inner.closed }, outer }

/-- A call or spawn added. A call that waits for a coroutine marks the open regions. -/
def addCall (o : Outline) (form : CallForm) (dest : Option VarId) (sig : Signature)
    (args : List Operand) : Outline :=
  let o := o.add (.detached (.call form sig) dest sig.result args)
  if (NodeKind.call form sig).isPlainCall && sig.suspends then o.mark else o

/-- The branch to an open region from inside the innermost one. -/
def branchTo (o : Outline) (target : NodeId) : Branch := ⟨target, o.opened.idxOf target⟩

/-- The outline after a call that succeeded. -/
def follow (o : Outline) : Instruction → Outline
  | .declare role ty _ _ =>
    { o.add (.detached (.declare role) (some o.vars) (some ty) []) with vars := o.vars + 1 }
  | .tmp _ => { o with vars := o.vars + 1 }
  | .assign dest code ty args => o.add (.detached (.op code) dest (some ty) args)
  | .call dest sig args => o.addCall .direct dest sig args
  | .callIndirect dest sig args => o.addCall .indirect dest sig args
  | .spawn sig args => o.addCall .spawn none sig args
  | .spawnIndirect dest sig args => o.addCall .spawnIndirect dest sig args
  | .yieldNow => (o.add (.bare .yield)).mark
  | .ret args => o.add (.detached .ret none none args)
  | .block => o.enter .block []
  | .loop => o.enter .loop []
  | .cond condition => o.enter .cond [condition]
  | .otherwise => o.otherwise
  | .close => o.close
  | .branch target => o.add (.bare (.branch false (o.branchTo target)))
  | .branchIf condition target =>
    o.add (.detached (.branch true (o.branchTo target)) none none [condition])

/-- The outline a sequence of successful calls describes. -/
def describe (name : String) (sig : Signature) (calls : List Instruction) : Outline :=
  calls.foldl follow (start name sig)

end Outline

/-! ### Wires

Every call that changes the stream lays one wire, from the slot at which the innermost region goes
on. -/

namespace Outline

variable (o : Outline) {l : Scope} {outer : List Scope}

theorem wires_add (d : Node) :
    (o.add d).wires = o.wires ++ [(o.inner.port, (o.contents.length, 0))] := by
  have hsource : Scope.source { o.inner with
      sofar := o.inner.sofar.append (.leaf o.contents.length .done) } = o.inner.source := rfl
  simp [wires, add, Scope.wires, hsource, Scope.port, openWires_append, openWires]

theorem wires_otherwise (hfirst : o.inner.first = none) :
    o.otherwise.wires = o.wires ++ [(o.inner.port, (o.inner.closer, 0))] := by
  simp [wires, otherwise, Scope.wires, Scope.source, Scope.port, hfirst, openWires, wires_eq]

theorem wires_close (houter : o.outer = l :: outer) :
    o.close.wires = o.wires ++ [(o.inner.port, o.inner.target)] := by
  cases hfirst : o.inner.first <;>
  simp [wires, close, houter, approach, Scope.wires, Scope.source, Scope.port, Scope.target,
    Scope.closed, hfirst, openWires_append, openWires, wires_eq]

theorem port_close (houter : o.outer = l :: outer) : o.close.inner.port = (o.inner.closer, 0) := by
  cases hfirst : o.inner.first <;>
  simp [close, houter, Scope.port, Scope.closed, hfirst, exitPort_append, exitPort]

end Outline

/-! ### Coherence -/

/-- The arms of an open region have the kinds of their places. -/
structure Scope.Fits (l : Scope) (kinds : NodeId → Option NodeKind)
    (enclosing : List NodeId) : Prop where
  closer_kind : kinds l.closer = some (.close l.opener)
  sofar_shaped : l.sofar.Shaped kinds
  sofar_fits : l.sofar.BranchesFit kinds enclosing
  first_fits : ∀ a ∈ l.first, a.Shaped kinds ∧ a.BranchesFit kinds enclosing

/-- The open regions fit one into the other, and the last is the body. -/
def Nested (kinds : NodeId → Option NodeKind) : Scope → List Scope → Prop
  | inner, [] =>
    inner.Fits kinds [inner.opener] ∧ inner.opener = 0 ∧ inner.closer = 1 ∧ inner.first = none
  | inner, l :: outer =>
    inner.Fits kinds (inner.opener :: (l :: outer).map Scope.opener) ∧
      (∃ form suspends, kinds inner.opener = some (.enter form ⟨inner.closer, suspends⟩) ∧
        (inner.first ≠ none → form = .cond)) ∧ Nested kinds l outer

/-- A node that the builder appends: its operands are literals and variables below `vars`. -/
structure Node.Plain (d : Node) (vars : Nat) : Prop where
  flat : d.Flat
  accesses_lt : ∀ a ∈ d.accesses, a.1 < vars
  condition : d.kind.isConditional = true → d.args.length = 1
  no_jump : ∀ guarded goal, d.kind ≠ .goto guarded goal

theorem Node.Plain.marked {d : Node} {vars : Nat} (h : d.Plain vars) : d.marked.Plain vars where
  flat := h.flat
  accesses_lt := d.accesses_marked ▸ h.accesses_lt
  condition := d.isConditional_marked ▸ h.condition
  no_jump guarded goal hkind := by
    refine h.no_jump guarded goal ?_
    obtain ⟨kind, ty, dest, args, next, prev⟩ := d
    cases kind <;> simp_all [Node.marked]

/-- The numbers of an outline are those of its nodes, and every node has the kind of its place. -/
structure Outline.Coherent (o : Outline) : Prop where
  ids : ((o.inner :: o.outer).flatMap Scope.ids).Perm (List.range o.contents.length)
  nested : Nested o.kinds o.inner o.outer
  entry_kind : ∃ name sig suspends, o.kinds 0 = some (.define name sig ⟨1, suspends⟩)
  exit_kind : o.kinds 1 = some (.close 0)
  plain : ∀ d ∈ o.contents, d.Plain o.vars

section Coherence

variable {kinds kinds' : NodeId → Option NodeKind} {inner : Scope} {outer : List Scope}

/-- Marks play no role in how a region fits. -/
theorem Scope.Fits.congr {l : Scope} {enclosing : List NodeId} (h : l.Fits kinds enclosing)
    (heq : ∀ n ∈ l.ids, (kinds' n).map NodeKind.unmarked = (kinds n).map NodeKind.unmarked) :
    l.Fits kinds' enclosing := by
  have hsofar : ∀ n ∈ l.sofar.nodes, _ := fun n hn => heq n (by simp [Scope.ids, hn])
  refine ⟨?_, h.sofar_shaped.congr fun n hn => map_shape_of_unmarked (hsofar n hn),
    h.sofar_fits.congr hsofar, fun a ha => ?_⟩
  · obtain ⟨kind, hkind, hsame⟩ :=
      exists_unmarked (h.closer_kind ▸ heq l.closer (by simp [Scope.ids]))
    obtain rfl := unmarked_eq_close.mp hsame
    exact hkind
  · obtain ⟨hshaped, hfits⟩ := h.first_fits a ha
    have hfirst : ∀ n ∈ a.nodes, _ := fun n hn => heq n (by
      rw [mem_def] at ha
      simp [Scope.ids, ha, hn])
    exact ⟨hshaped.congr fun n hn => map_shape_of_unmarked (hfirst n hn), hfits.congr hfirst⟩

variable (h : Nested kinds inner outer)
include h

/-- Marks play no role in how regions are nested. -/
theorem Nested.congr (heq : ∀ n ∈ (inner :: outer).flatMap Scope.ids,
      (kinds' n).map NodeKind.unmarked = (kinds n).map NodeKind.unmarked) :
      Nested kinds' inner outer := by
  induction outer generalizing inner with
  | nil => exact ⟨h.1.congr fun n hn => heq n (by simp [hn]), h.2⟩
  | cons l outer ih =>
    obtain ⟨hfits, ⟨form, suspends, hopen, hcond⟩, hrest⟩ := h
    refine ⟨hfits.congr fun n hn => heq n (by simp [hn]), ?_, ih hrest fun n hn => ?_⟩
    · obtain ⟨kind, hkind, hsame⟩ :=
        exists_unmarked (hopen ▸ heq inner.opener (by simp [Scope.ids]))
      obtain ⟨suspends', rfl⟩ := unmarked_eq_enter hsame
      exact ⟨form, suspends', hkind, hcond⟩
    · refine heq n ?_
      rw [flatMap_cons]
      exact mem_append_right _ hn

/-- The innermost region of a nest. -/
theorem Nested.fits : inner.Fits kinds (inner.opener :: outer.map Scope.opener) := by
  cases outer with
  | nil => exact h.1
  | cons l outer => exact h.1

/-- The opening node of the body defines the routine, so a region with another opening node is not
the body. -/
theorem Nested.outer_ne_nil {name : String} {sig : Signature} {body region : Region}
    {form : Form} (hentry : kinds 0 = some (.define name sig body))
    (hopen : kinds inner.opener = some (.enter form region)) : outer ≠ [] := by
  rintro rfl
  rw [h.2.1, hentry] at hopen
  simp at hopen

/-- The arm under construction exchanged. -/
theorem Nested.withSofar {t : Strand} (hshaped : t.Shaped kinds)
    (hfits : t.BranchesFit kinds (inner.opener :: outer.map Scope.opener)) :
    Nested kinds { inner with sofar := t } outer := by
  have hinner := h.fits
  have hnew : Scope.Fits { inner with sofar := t } kinds (inner.opener :: outer.map Scope.opener) :=
    ⟨hinner.closer_kind, hshaped, hfits, hinner.first_fits⟩
  cases outer with
  | nil => exact ⟨hnew, h.2⟩
  | cons l outer => exact ⟨hnew, h.2⟩

end Coherence

namespace Outline

namespace Coherent

variable {o : Outline} {n : NodeId}

variable (h : o.Coherent)
include h

theorem lt_length (hn : n ∈ (o.inner :: o.outer).flatMap Scope.ids) : n < o.contents.length :=
  mem_range.mp (h.ids.mem_iff.mp hn)

theorem nodup_ids : ((o.inner :: o.outer).flatMap Scope.ids).Nodup :=
  h.ids.nodup_iff.mpr nodup_range

omit h in
theorem kinds_append (more : List Node) (hn : n < o.contents.length) :
    ((o.contents ++ more)[n]?).map Node.kind = o.kinds n := by
  rw [getElem?_append_left hn]
  rfl

theorem two_le_length : 2 ≤ o.contents.length := by
  have hsome := h.exit_kind
  by_contra hlt
  simp [kinds, getElem?_eq_none (show o.contents.length ≤ 1 by omega)] at hsome

omit h in
theorem start (name : String) (sig : Signature) : (start name sig).Coherent where
  ids := Perm.refl [0, 1]
  nested := ⟨⟨rfl, trivial, trivial, by simp [Outline.start]⟩, rfl, rfl, rfl⟩
  entry_kind := ⟨name, sig, sig.suspends, rfl⟩
  exit_kind := rfl
  plain d hd := by
    simp only [Outline.start, mem_cons, not_mem_nil, or_false] at hd
    rcases hd with rfl | rfl <;>
    exact ⟨by simp [Node.Flat, bare, Node.detached], by simp [Node.accesses, bare,
      Node.detached], by simp [bare, Node.detached], by simp [bare, Node.detached]⟩

/-- A node of its own at the end of the innermost region. -/
theorem add {d : Node} (hplain : d.Plain o.vars) (hregion : d.kind.region? = none)
    (hclose : d.kind.isClose = false) (hbranch : ∀ guarded goal, d.kind = .branch guarded goal →
      o.opened.idxOf? goal.target = some goal.depth) : (o.add d).Coherent := by
  have hold : ∀ n < o.contents.length, (o.add d).kinds n = o.kinds n := fun n hn =>
    kinds_append [d] hn
  have hnew : (o.add d).kinds o.contents.length = some d.kind := by
    simp [Outline.add, kinds]
  have hnested : Nested (o.add d).kinds o.inner o.outer :=
    h.nested.congr fun n hn => by rw [hold n (h.lt_length hn)]
  have htwo := h.two_le_length
  refine ⟨?_, hnested.withSofar ?_ ?_, ?_, ?_, ?_⟩
  · have hids :
        Scope.ids { o.inner with sofar := o.inner.sofar.append (.leaf o.contents.length .done) } =
        o.inner.ids ++ [o.contents.length] := by
      simp [Scope.ids]
    simp only [Outline.add, flatMap_cons, hids, length_append, length_singleton, range_succ]
    have hids' := h.ids
    rw [flatMap_cons] at hids'
    rw [List.append_assoc]
    exact (perm_append_comm.append_left _).trans (by
      rw [← List.append_assoc]
      exact hids'.append_right _)
  · rw [shaped_append]
    exact ⟨hnested.fits.sofar_shaped, ⟨d.kind, hnew, hregion, hclose⟩, trivial⟩
  · rw [branchesFit_append]
    refine ⟨hnested.fits.sofar_fits, fun guarded goal hkind => ?_, trivial⟩
    rw [hnew] at hkind
    exact hbranch guarded goal (some.inj hkind)
  · obtain ⟨name, sig, suspends, hentry⟩ := h.entry_kind
    exact ⟨name, sig, suspends, by rw [hold 0 (by omega), hentry]⟩
  · rw [hold 1 (by omega), h.exit_kind]
  · intro e he
    rcases mem_append.mp he with he | he
    · exact h.plain e he
    · rw [mem_singleton.mp he]
      exact hplain

omit h in
theorem kinds_mark (n : NodeId) :
    (o.mark.kinds n).map NodeKind.unmarked = (o.kinds n).map NodeKind.unmarked := by
  simp only [kinds, Outline.mark, getElem?_mapIdx, Option.map_map]
  congr 1
  funext d
  simp only [Function.comp_apply]
  split
  · exact d.unmarked_marked
  · rfl

/-- Marking the open regions. -/
theorem mark : o.mark.Coherent := by
  refine ⟨?_, h.nested.congr fun n _ => kinds_mark n, ?_, ?_, ?_⟩
  · simpa [Outline.mark] using h.ids
  · obtain ⟨name, sig, suspends, hentry⟩ := h.entry_kind
    obtain ⟨kind, hkind, hsame⟩ := exists_unmarked (hentry ▸ kinds_mark 0)
    obtain ⟨suspends', rfl⟩ := unmarked_eq_define hsame
    exact ⟨name, sig, suspends', hkind⟩
  · obtain ⟨kind, hkind, hsame⟩ := exists_unmarked (h.exit_kind ▸ kinds_mark 1)
    obtain rfl := unmarked_eq_close.mp hsame
    exact hkind
  · intro d hd
    obtain ⟨n, hn, rfl⟩ := mem_mapIdx.mp hd
    have hplain := h.plain _ (getElem_mem hn)
    split
    · exact hplain.marked
    · exact hplain

/-- A region opened. -/
theorem enter {form : Form} {args : List Operand}
    (hplain : (Node.detached (.enter form ⟨o.contents.length + 1, false⟩) none none args).Plain
      o.vars) : (o.enter form args).Coherent := by
  have htwo := h.two_le_length
  have hold : ∀ n < o.contents.length, (o.enter form args).kinds n = o.kinds n := fun n hn =>
    kinds_append _ hn
  have hopen : (o.enter form args).kinds o.contents.length =
      some (.enter form ⟨o.contents.length + 1, false⟩) := by
    simp [Outline.enter, kinds, Node.detached]
  have hclose :
      (o.enter form args).kinds (o.contents.length + 1) = some (.close o.contents.length) := by
    simp [Outline.enter, kinds, bare, Node.detached]
  refine ⟨?_, ⟨⟨hclose, trivial, trivial, by simp [Outline.enter]⟩, ⟨form, false, hopen, ?_⟩, ?_⟩,
    ?_, ?_, ?_⟩
  · have hids : Scope.ids ⟨o.contents.length, o.contents.length + 1, none, .done⟩ =
        [o.contents.length, o.contents.length + 1] := rfl
    have hrange : List.range (o.enter form args).contents.length =
        List.range o.contents.length ++ [o.contents.length, o.contents.length + 1] := by
      simp [Outline.enter, range_succ]
    rw [hrange]
    show (Scope.ids ⟨o.contents.length, o.contents.length + 1, none, .done⟩ ++
      (o.inner :: o.outer).flatMap Scope.ids).Perm _
    rw [hids]
    exact perm_append_comm.trans (h.ids.append_right _)
  · simp [Outline.enter]
  · exact h.nested.congr fun n hn => by rw [hold n (h.lt_length hn)]
  · obtain ⟨name, sig, suspends, hentry⟩ := h.entry_kind
    exact ⟨name, sig, suspends, by rw [hold 0 (by omega), hentry]⟩
  · rw [hold 1 (by omega), h.exit_kind]
  · intro d hd
    simp only [Outline.enter, mem_append, mem_cons, not_mem_nil, or_false] at hd
    rcases hd with hd | rfl | rfl
    · exact h.plain d hd
    · exact hplain
    · exact ⟨by simp [Node.Flat, bare, Node.detached],
        by simp [Node.accesses, bare, Node.detached],
        by simp [bare, Node.detached], by simp [bare, Node.detached]⟩

/-- The second arm of a conditional started. -/
theorem otherwise {suspends : Bool} (hfirst : o.inner.first = none)
    (hopen : o.kinds o.inner.opener = some (.enter .cond ⟨o.inner.closer, suspends⟩)) :
    o.otherwise.Coherent := by
  have hinner := h.nested.fits
  have hfits : Scope.Fits { o.inner with first := some o.inner.sofar, sofar := .done } o.kinds
      (o.inner.opener :: o.outer.map Scope.opener) := by
    refine ⟨hinner.closer_kind, trivial, trivial, fun a ha => ?_⟩
    obtain rfl := some.inj ha
    exact ⟨hinner.sofar_shaped, hinner.sofar_fits⟩
  refine ⟨?_, ?_, h.entry_kind, h.exit_kind, h.plain⟩
  · have hids :
        Scope.ids { o.inner with first := some o.inner.sofar, sofar := .done } = o.inner.ids := by
      simp [Scope.ids, hfirst]
    simpa [Outline.otherwise, hids] using h.ids
  · obtain ⟨name, sig, marked, hentry⟩ := h.entry_kind
    have hne := h.nested.outer_ne_nil hentry hopen
    have hnested := h.nested
    unfold Outline.otherwise
    show Nested o.kinds { o.inner with first := some o.inner.sofar, sofar := .done } o.outer
    cases houter : o.outer with
    | nil => exact absurd houter hne
    | cons l outer =>
      rw [houter] at hfits hnested
      exact ⟨hfits, ⟨.cond, suspends, hopen, fun _ => rfl⟩, hnested.2.2⟩

/-- The innermost region closed. -/
theorem close : o.close.Coherent := by
  unfold Outline.close
  cases houter : o.outer with
  | nil => exact h
  | cons l outer =>
    have hnested := h.nested
    rw [houter] at hnested
    obtain ⟨hfits, ⟨form, suspends, hopen, hcond⟩, hrest⟩ := hnested
    refine ⟨?_, hrest.withSofar ?_ ?_, h.entry_kind, h.exit_kind, h.plain⟩
    · have hclosed : o.inner.closed.nodes.Perm o.inner.ids := by
        unfold Scope.closed Scope.ids
        cases o.inner.first with
        | none =>
          simp only [Strand.nodes, elim_none, nil_append, cons_append]
          exact (perm_append_singleton _ _).cons _
        | some a =>
          simp only [Strand.nodes, elim_some, cons_append]
          exact (perm_append_singleton _ _).cons _
      have hids : Scope.ids { l with sofar := l.sofar.append o.inner.closed } =
          l.ids ++ o.inner.closed.nodes := by
        simp [Scope.ids]
      have hall := h.ids
      simp only [houter, flatMap_cons] at hall
      simp only [flatMap_cons, hids]
      refine Perm.trans ?_ hall
      rw [← List.append_assoc]
      exact ((hclosed.append_left _).trans perm_append_comm).append_right _
    · rw [shaped_append]
      refine ⟨hrest.fits.sofar_shaped, ?_⟩
      unfold Scope.closed
      cases hfirst : o.inner.first with
      | none => exact ⟨⟨form, suspends, hopen⟩, hfits.closer_kind, hfits.sofar_shaped, trivial⟩
      | some a =>
        obtain rfl := hcond (by simp [hfirst])
        exact ⟨⟨suspends, hopen⟩, hfits.closer_kind, (hfits.first_fits a hfirst).1,
          hfits.sofar_shaped, trivial⟩
    · rw [branchesFit_append]
      refine ⟨hrest.fits.sofar_fits, ?_⟩
      unfold Scope.closed
      cases hfirst : o.inner.first with
      | none => exact ⟨hfits.sofar_fits, trivial⟩
      | some a => exact ⟨(hfits.first_fits a hfirst).2, hfits.sofar_fits, trivial⟩

end Coherent

end Outline

end CoroutineIR
