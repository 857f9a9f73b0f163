import CoroutineIR.Proofs.Sweeping
import CoroutineIR.Proofs.Finished

/-!
# Propagating constants

The walk that propagates constants changes the routine by taking out definitions, filling in known
values and replacing operations by their values, and by nothing else. In a routine that the builder
delivers no variable has a known value yet, so that all runs of the result echo those of the routine
before.
-/

namespace CoroutineIR

variable {r : Routine}

open List Option CoroutineIR.Action Folding

namespace Routine

variable {V : Type} {M : Meaning V} {store : VarId → V}

/-- What the node in front of which control is after some steps reads has been written. -/
def readsWritten (r : Routine) (M : Meaning V) (store : VarId → V) (k : ℕ) : Bool :=
  (r.runFor M store k).point.all fun n => (r.label n).all fun e =>
      (e.args.filterMap Operand.var?).all fun v =>
    v == r.mem || (r.constantOf v).isSome || r.addressableAt v ||
      (r.runFor M store k).trace.any fun x => (r.label x.node).any fun e' =>
      decide ((v, .write) ∈ e'.accesses)

/-- In a run that halts it is enough to look at every step. -/
theorem Initialized.of_halts {k : ℕ} (hend : (r.runFor M store k).point = none)
    (h : ∀ i < k, r.readsWritten M store i = true) : r.Initialized M store := by
  intro i n hpoint e he v hmem hv hunknown hquiet
  have hat := h i (lt_of_halts hend hpoint)
  simp only [readsWritten, hpoint, all_some, he, List.all_eq_true] at hat
  have hone := hat v (mem_filterMap.mpr ⟨_, hv, rfl⟩)
  simp only [hunknown, hquiet, beq_eq_false_iff_ne.mpr hmem, isSome_none, Bool.or_self,
    Bool.false_or, List.any_eq_true, Option.any_eq_true, decide_eq_true_eq] at hone
  obtain ⟨x, hx, e', he', hw⟩ := hone
  exact ⟨x, hx, e', he', hw⟩

end Routine

theorem Routine.WellStructured.foldable {t : Strand} (ht : r.WellStructured 1 t) (h : r.Built) :
    r.Foldable 1 t := by
  refine ⟨⟨ht, fun n _ e he => h.flat he⟩, fun v c hc => ?_⟩
  rw [(h.untouched v).1] at hc
  cases hc

theorem Routine.Built.foldable (h : r.Built) : ∃ t, r.Foldable 1 t := by
  obtain ⟨t, ht, -, -⟩ := h.wellStructured
  exact ⟨t, ht.foldable h⟩

namespace Folding

open Routine

/-- Literals as values. An operation that cannot be evaluated delivers its first operand. -/
def literals (target : Target) (heeds : NodeId → Bool) (truth : NodeId → List Literal → Bool) :
    Meaning Literal where
  lit x := x
  heeds
  result _ _ kind ty args :=
    match kind with
    | .op code =>
      ((evaluate target (ty.bind Ty.scalar?) code args : Query (Option Literal)).toOption.join).getD
        (args.headD default)
    | _ => args.headD default
  truth
  disturb _ _ := none

/-- Literals as values are computed with as the propagation does. -/
theorem literals_computes {target : Target} {heeds : NodeId → Bool}
    {truth : NodeId → List Literal → Bool}
    (hheeds : ∀ n, heeds n = true → ∀ code, r.kindOf n ≠ some (.op code)) :
    (literals target heeds truth).Computes target r where
  const past n ty x := by
    simp only [literals, evaluate_const]
    rfl
  copy past n ty x := by
    simp only [literals, evaluate_copy]
    rfl
  evaluates past n code ty values x hvalue := by
    have hlit : values.map (literals target heeds truth).lit = values := List.map_id values
    rw [hlit]
    simp only [literals, hvalue]
    rfl
  heeds n hn code hk := absurd hk (hheeds n hn code)
  disturb _ _ _ := rfl

/-- Constants are propagated in every routine that the builder delivers, unless operations are to be
evaluated and an integer type has no width. The stream loses nothing but operations that can be
evaluated, and a node that stays does what it did or has become the definition of its value.
Whatever operations mean, as long as they agree with the evaluation of literals, the runs of the
result echo those of the routine before in which nothing is read before it is written: they go
through the nodes that are left in the same order, and execute each for the same values unless it
has become the definition of its value. -/
theorem foldConstants_echoes {w : Work} (hbuilt : w.routine.Built) (options : Options) :
    Ends (foldConstants options) w (fun _ w' => ∃ t t', w.routine.WellStructured 1 t ∧
        w'.routine.WellStructured 1 t' ∧ w'.routine.entry = w.routine.entry ∧
        t'.nodes.Sublist t.nodes ∧
        (∀ n ∈ t.nodes, n ∉ t'.nodes → ∃ code, w.routine.kindOf n = some (.op code) ∧
          Evaluable options.target code) ∧
        (∀ n, w'.routine.kindOf n = w.routine.kindOf n ∨ w.routine.Reduced w'.routine n ∧
          ∃ code, w.routine.kindOf n = some (.op code) ∧ Evaluable options.target code) ∧
        ∀ (V : Type) (M : Meaning V) (store : VarId → V), M.Computes options.target w.routine →
          w.routine.Initialized M store →
          w.routine.Echoes w'.routine (w'.routine.entry :: 1 :: t'.nodes)
            (w.routine.Reduced w'.routine) M store (w'.routine.preset M store))
      fun _ => options.arithmetic = true ∧ ¬options.target.Sized := by
  obtain ⟨t, ht⟩ := hbuilt.foldable
  refine (ends_foldConstants ht.toWellStructured).mono fun _ w' hfolded => ?_
  obtain ⟨t', hrun⟩ := hfolded
  have ht' : w'.routine.Foldable 1 t' := hrun.foldable ht
  have hentry : w'.routine.entry = w.routine.entry := hrun.entry_eq
  refine ⟨t, t', ht.toWellStructured, ht'.toWellStructured, hentry, hrun.sublist,
    fun n hn hgone => ?_, fun n => ?_, fun V M store hM hinit => ?_⟩
  · refine (hrun.mem_new (mem_live hn)).resolve_left fun hmem => ?_
    have hnodup := ht.nodup
    replace hmem : n ∈ w.routine.live 1 t' := live_congr hentry .. ▸ hmem
    simp only [nodup_cons, mem_cons, not_or] at hnodup
    rcases mem_cons.mp hmem with rfl | hmem
    · exact hnodup.1.2 hn
    · rcases mem_cons.mp hmem with rfl | hmem
      · exact hnodup.2.1 hn
      · exact hgone hmem
  · exact hrun.kindOf_cases n
  · have hpreset : w.routine.preset M store = store := funext fun v => by
      rw [preset, (hbuilt.untouched _).1, elim_none]
    obtain ⟨-, hechoes, -⟩ := hrun.echoes ht hM (hpreset.symm ▸ hinit)
    rwa [hpreset] at hechoes

/-- A loop that calls a routine with the sum of two constants. The sum is evaluated, and all three
definitions go. -/
theorem foldConstants_echoes_sum :
    let callee : Signature := ⟨[.scalar .i32], none, .default⟩
    let calls : List Instruction := [.declare .param (.scalar .i32) "p" false, .tmp none, .tmp none,
      .tmp none, .assign (some 2) .const (.scalar .i32) [.lit (.int 2)], .assign (some 3) .const
      (.scalar .i32) [.lit (.int 3)], .loop, .assign (some 4) .add (.scalar .i32) [.var 2, .var 3],
      .call none callee [.var 4], .branchIf (.var 1) 5, .close, .ret [.var 4]]
    let options : Options := ⟨{}, true⟩
    let M := literals {} (· == 8) fun _ _ => false
    ∃ r b', Build.finish (Build.play default calls (Build.define "main" default)).1 = .ok r b' ∧
      r.Built ∧ M.Computes options.target r ∧ r.Initialized M (fun _ => .int 0) ∧
      Yields (foldConstants options) ⟨r, #[]⟩ fun _ w' =>
        (w'.routine.Detached 3 ∧ w'.routine.Detached 4 ∧ w'.routine.Detached 7) ∧
        ∃ t', w'.routine.WellStructured 1 t' ∧
          r.Echoes w'.routine (w'.routine.entry :: 1 :: t'.nodes) (r.Reduced w'.routine) M
          (fun _ => .int 0) (w'.routine.preset M fun _ => .int 0) := by
  intro callee calls options M
  obtain ⟨r, b', -, hfinish, hbuilt, -, hcall, hend, hwritten, hfolded⟩ :=
    Build.exists_main calls (by decide) (fun r => (r.kindOf 8).any NodeKind.isPlainCall = true ∧
    (r.runFor M (fun _ => .int 0) 12).point = none ∧
      (∀ i < (12 : ℕ), r.readsWritten M (fun _ => .int 0) i = true) ∧
      (foldConstants options).Yields ⟨r, #[]⟩ fun _ w' =>
        w'.routine.Detached 3 ∧ w'.routine.Detached 4 ∧ w'.routine.Detached 7) (by decide +kernel)
  have hM : M.Computes options.target r := by
    refine literals_computes fun n hn code hk => ?_
    obtain rfl : n = 8 := by simpa using hn
    rw [hk] at hcall
    cases hcall
  have hinit : r.Initialized M fun _ => .int 0 := .of_halts hend hwritten
  refine ⟨r, b', hfinish, hbuilt, hM, hinit, ?_⟩
  obtain ⟨_, w', hok, hgone⟩ := yields_iff_exists.mp hfolded
  obtain ⟨-, t', -, hwell, -, -, -, -, hechoes⟩ :=
    (foldConstants_echoes (w := ⟨r, #[]⟩) hbuilt options).of_ok hok
  exact yields_iff_exists.mpr ⟨_, w', hok, hgone, t', hwell, hechoes _ M _ hM hinit⟩

/-- Constants are propagated in every well-structured routine if the integer types have a width,
whatever sub-expressions its nodes have. The counts stay exact, and a variable whose value becomes
known is not written any more. -/
theorem foldConstants_wellStructured {w : Work} {exit : NodeId} {t : Strand}
    (hr : w.routine.WellStructured exit t) (options : Options) (hsized : options.target.Sized) :
    Yields (foldConstants options) w fun _ w' => ∃ t', w'.routine.WellStructured exit t' ∧
      ∀ v, w'.routine.constantOf v ≠ w.routine.constantOf v → w'.routine.writesOf v = 0 ∧
        ∀ n ∈ w'.routine.entry :: exit :: t'.nodes, (v, .write) ∉ w'.routine.accessesOf n := by
  refine ((ends_foldConstants hr).yields fun _ hfault => hfault.2 hsized).mono fun _ w' hfolded =>
    ?_
  obtain ⟨t', hrun⟩ := hfolded
  have ht' : w'.routine.WellStructured exit t' := hrun.wellStructured hr
  refine ⟨t', ht', fun v hv => ?_⟩
  have hzero : w'.routine.tally v .write = 0 := hrun.writesOf_eq_zero hr hv
  refine ⟨hzero, fun n hn hwrites => ?_⟩
  have hle := ht'.accounted.count_le hn v .write
  have hpos := count_pos_iff.mpr hwrites
  omega

/-- A conditional with a constant in each arm. Both definitions go, and the conditional is linked to
its end twice. -/
theorem foldConstants_wellStructured_arms :
    let calls : List Instruction := [.declare .param (.scalar .i32) "p" false, .tmp none, .tmp none,
      .cond (.var 1), .assign (some 2) .const (.scalar .i32) [.lit (.int 2)], .otherwise,
      .assign (some 3) .const (.scalar .i32) [.lit (.int 3)], .close]
    let options : Options := ⟨{}, true⟩
    ∃ r b' t, Build.finish (Build.play default calls (Build.define "main" default)).1 = .ok r b' ∧
      r.WellStructured 1 t ∧ options.target.Sized ∧
      Yields (foldConstants options) ⟨r, #[]⟩ fun _ w' =>
        (w'.routine.nextOf 3 = [4, 4] ∧ (w'.routine.constantOf 3).isSome) ∧
        ∃ t', w'.routine.WellStructured 1 t' ∧ w'.routine.writesOf 3 = 0 := by
  intro calls options
  obtain ⟨r, b', t, hfinish, -, hwell, hunknown, hfolded⟩ :=
    Build.exists_main calls (by decide)
    (fun r => r.constantOf 3 = none ∧ (foldConstants options).Yields ⟨r, #[]⟩ fun _ w' =>
      w'.routine.nextOf 3 = [4, 4] ∧ (w'.routine.constantOf 3).isSome) (by decide +kernel)
  have hsized : options.target.Sized := by
    simp only [Target.Sized]
    decide
  refine ⟨r, b', t, hfinish, hwell, hsized, ?_⟩
  refine (hfolded.and (foldConstants_wellStructured (w := ⟨r, #[]⟩) hwell options hsized)).mono
    fun _ w' h => ?_
  obtain ⟨⟨hnext, hknown⟩, t', hwell', hsettled⟩ := h
  refine ⟨⟨hnext, hknown⟩, t', hwell', (hsettled 3 ?_).1⟩
  intro hsame
  rw [hsame, hunknown] at hknown
  cases hknown

end Folding

end CoroutineIR
