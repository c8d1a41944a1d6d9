import ScriptMachine.Proofs.Lowering.Safety
import ScriptMachine.Proofs.Lowering.SectionOrder

/-!
# Registers are written before they are read

Every node lowers to code that can be followed (`settles_node`): by induction on the tree, with the law
of each construct from the modules before. So each function of a lowered program can be followed from
the start of any of its blocks, the program has a plan, and in every frame of every run no block is
entered twice and no register is written once it was read.
-/

namespace ScriptMachine

namespace Lowering

open Build

variable {g : Func} {C : Set Reg}

/-! ## Trees -/

/-- The code of another function is none of this one's. -/
theorem settles_func {H : Set Reg} {b : BlockId} {n : Int} {body : BlockId → Build (Option Reg)}
    (ab : ∀ c, Adds {c} (body c)) (pos : Position) (name : String) (params : List String) :
    Settles g C H b n (function pos name params body >>= fun _ => pure none) := by
  refine Orders.bind (by grind) (Q := fun _ _ => True) ?_ fun _ _ _ _ => settles_pure_none
  unfold function
  split
  · exact orders_complain pos _
  · exact orders_function _ (adds_wholeBody _ ab)

mutual

theorem settles_node (b : BlockId) (x : Node) (C H : Set Reg) (n : Int) :
    Settles g C H b n (node b x) := by
  cases x with
  | absent => rw [node]; exact settles_pure_none
  | program _ xs => rw [node]; exact settles_stmts b xs C H n none settledValue_none
  | list _ xs => rw [node]; exact settles_stmts b xs C H n none settledValue_none
  | number pos text => rw [node]; exact settles_number pos text
  | string _ v => rw [node]; exact settles_constant trivial
  | word _ name => rw [node]; exact settles_word name
  | assign _ name value =>
    rw [node]
    exact settles_assign (by grind) name (settles_node b value C H n)
  | func pos name params body =>
    rw [node]
    exact settles_func (by grind) pos name params
  | call pos callee xs =>
    rw [node]
    exact settles_call (by grind) pos callee (settles_node b callee C H n) (settlesAll_args b xs C H)
  | closure pos params captures body =>
    rw [node]
    exact settles_closure (by grind) pos params captures fun c C => settles_node c body C ∅
  | binary pos left op right =>
    rw [node]
    exact settles_binary (by grind) pos op (settles_node b left C H n) (settles_node b right C)
  | choice pos scrutinee cs default =>
    rw [node]
    have hd : ∀ body ∈ optionalNode default, ∀ c n, Settles g C H c n (body c) :=
      of_mem_optionalNode fun c => settles_node c default C H
    exact settles_choice (by grind) pos (settles_node b scrutinee C H n)
      (gatherer_cases pos cs) (collects_cases pos cs C H)
      (of_mem_optionalNode fun c => adds_node c default) hd
  | guarded pos body cs cleanup =>
    rw [node]
    have hc : ∀ body ∈ optionalNode cleanup, ∀ c n, Settles g C H c n (body c) :=
      of_mem_optionalNode fun c => settles_node c cleanup C H
    exact settles_guarded (fun c => adds_node c body) (fun c => settles_node c body C H) cs
      (gatherer_clauses pos · cs) (fun r n hr => collects_clauses pos cs C H hr)
      (of_mem_optionalNode fun c => adds_node c cleanup) hc
  | ret _ value =>
    rw [node]
    exact settles_exit (leave b) (by grind) orders_leave (by grind) (settles_node b value C H n)
  | throw _ value =>
    rw [node]
    exact settles_exit (fun v => emit b (.leave .throw v)) (by grind) (orders_emit_leave .throw) (by grind)
      (settles_node b value C H n)
  | command pos name xs line =>
    rw [node]
    exact settles_command (by grind) pos name line (settlesAll_args b xs C H n)
  | invoke _ name xs =>
    rw [node]
    exact settles_issue (by grind) name [] (settlesAll_args b xs C H n)
  | other pos type => rw [node]; exact settles_degrade pos _

theorem settles_stmts (b : BlockId) (xs : List Node) (C H : Set Reg) (n : Int) (last : Option Reg)
    (hlast : SettledValue C H n (operand last)) : Settles g C H b n (stmts b last xs) := by
  cases xs with
  | nil =>
    rw [stmts]
    exact orders_pure fun _ hn => hlast.mono hn
  | cons x xs =>
    rw [stmts]
    refine Orders.bind (by grind) (settles_node b x C H n) fun r n₁ _ hr => ?_
    refine orders_terminated.bind (by grind) fun t n₂ hn _ => ?_
    cases t with
    | true => exact orders_pure fun _ hn' => hr.mono (le_trans hn hn')
    | false => exact settles_stmts b xs C H n₂ r (hr.mono hn)

theorem settlesAll_args (b : BlockId) (xs : List Node) (C H : Set Reg) (n : Int) :
    SettlesAll g C H b n (args b xs) := by
  cases xs with
  | nil =>
    rw [args]
    exact orders_pure fun _ _ => by simp
  | cons x xs =>
    rw [args]
    refine Orders.bind (by grind) (settles_node b x C H n) fun r n₁ _ hr => ?_
    refine Orders.bind (by grind) (settlesAll_args b xs C H n₁) fun vs n₂ hn hvs => ?_
    refine orders_pure fun n₃ hn' => List.forall_mem_cons.mpr ⟨hr.mono (le_trans hn hn'), ?_⟩
    exact fun v hv => (hvs v hv).mono hn'

theorem collects_cases (pos : Position) (cs : List Case) (C H : Set Reg) (n : Int) :
    Collects g C H n (cases pos · cs) := by
  cases cs with
  | nil => exact collects_pure
  | cons c cs =>
    obtain ⟨p, body⟩ := c
    have hcase := collects_addCase (n := n) (fun c => adds_node c body)
      (fun c => settles_node c body C H) pos p
    exact hcase.bind (fun a => makes_addCase pos a p (by grind))
      (collects_cases pos cs C H n) (gatherer_cases pos cs)

theorem collects_clauses (pos : Position) (cs : List Clause) (C H : Set Reg) {n : Int} {caught : Reg}
    (hcaught : Settled C H n caught) : Collects g C H n (clauses pos caught · cs) := by
  cases cs with
  | nil => exact collects_pure
  | cons c cs =>
    obtain ⟨name, p, body⟩ := c
    have hclause := collects_addClause (fun c => adds_node c body)
      (fun c => settles_node c body C H) pos hcaught name p
    exact hclause.bind (fun a => makes_addClause pos caught a name p (by grind))
      (collects_clauses pos cs C H hcaught) (gatherer_clauses pos caught cs)

end

end Lowering

/-! ## Functions -/

namespace Declaration

open Build Lowering

/-- Every block of a lowered function can be followed from its start. -/
theorem Makes.planned {quiet : Prop} {d : Declaration} {f : Func} (h : d.Makes quiet f) {c : BlockId}
    (hc : f.Has c) : f.Planned c := by
  obtain ⟨s, hfunc, hnames, hencl, rfl, -⟩ := h
  have hlaw : Orders (wholeBody s.func (node · d.body) s).2.func ∅ ∅ s.func.entry s.func.numRegs
      (wholeBody s.func (node · d.body)) fun _ _ => True := by
    refine (orders_bindAll s.func.params fun r hr => .inr ⟨?_, id⟩).bind (by grind)
      fun _ n₁ _ _ => ?_
    · rw [hfunc] at hr ⊢
      exact (Func.new_paramRegs_inRange _ _ hr).2
    · exact Orders.bind (by grind) (settles_node s.func.entry d.body ∅ ∅ n₁)
        fun r _ _ hr => orders_sealBody hr
  have hg := adds_wholeBody s.func (fun c => adds_node c d.body) s
  have hlaw := hlaw s (le_refl _)
  generalize (wholeBody s.func (node · d.body) s).2 = t at *
  have henc : t.enclosing = [] := by
    have hgrow := hg.enclosing
    rw [hencl] at hgrow
    exact List.forall₂_nil_left_iff.mp hgrow
  have hkept : Kept ∅ ∅ s := ⟨by simp [hfunc], by rw [hencl]; trivial, by simp, by simp [hnames]⟩
  have hentry : s.func.entry = ⟨0⟩ := by rw [hfunc, Func.new_entry]
  obtain ⟨hlaid, -⟩ := hlaw hkept (by rw [hfunc]; exact Func.new_has_entry _ _)
    (by intro r _; rw [henc]; exact Iff.rfl)
    ⟨le_refl _, le_refl _, fun _ _ _ _ h => h, fun _ _ _ _ => rfl⟩
  by_cases hold : s.func.Has c
  · -- the only block at the start is the entry
    have hzero : c = s.func.entry := by
      obtain ⟨h₀, h₁⟩ := hold
      rw [hfunc, Func.new_blocks_size] at h₁
      rw [hentry, BlockId.mk.injEq]
      omega
    subst hzero
    refine ⟨outlook ∅ ∅ s, outlook ∅ ∅ t, hold.2, ?_⟩
    have hon := hlaid.onward _ (.stop (le_refl _) (Outlook.le_refl _))
    rwa [hfunc, Func.new_code, ← hfunc] at hon
  · exact hlaid.planned c hold hc

end Declaration

/-! ## Programs -/

namespace Lowering

/-- In every frame of every run of a lowered program, no block is entered more than once and no register
is written after it has been read, whatever commands answer and however deep calls may nest. Its
functions have to fit the machine. -/
theorem orderly_of_traced {t : Node} (hfit : Fit (program t).1) {cfg : RunConfig} {s : State}
    {h : History} (hs : Machine.Traced cfg (program t).1 s h) :
    ∀ log ∈ h.log :: h.waiting, log.Orderly := by
  have hp : ∀ f ∈ (program t).1.funcs, (∀ b, (f.code b).length < codeLimit) ∧
      ∀ c, f.Has c → f.Planned c := by
    intro f hf
    obtain ⟨d, -, hmakes⟩ := (program_sourced t).funcs f hf
    exact ⟨(hfit f hf).code, fun c hc => hmakes.planned hc⟩
  exact ((planOf hp).follows_traced hs).orderly

/-- In the call of the closure, the short circuit sets its result twice before it is read. -/
theorem guardedNames_orderly : Fit (program guardedNames).1 ∧
    ∃ s h, Machine.Traced .shallow (program guardedNames).1 s h ∧ h.waiting.length = 1 ∧
      h.log = [.write ⟨7⟩, .write ⟨6⟩, .enter ⟨7⟩, .read ⟨7⟩, .write ⟨8⟩, .read ⟨6⟩, .write ⟨8⟩,
        .read ⟨8⟩] ∧
      ∀ log ∈ h.log :: h.waiting, log.Orderly := by
  have hfit : Fit (program guardedNames).1 := by decide +kernel
  have htrace : (Machine.trace .shallow (program guardedNames).1 15).map
      (fun x => (x.2.waiting.length, x.2.log)) = some (1, [.write ⟨7⟩, .write ⟨6⟩, .enter ⟨7⟩,
        .read ⟨7⟩, .write ⟨8⟩, .read ⟨6⟩, .write ⟨8⟩, .read ⟨8⟩]) := by
    decide +kernel
  obtain ⟨⟨s, h⟩, hsh, heq⟩ := Option.map_eq_some_iff.mp htrace
  obtain ⟨hwaiting, hlog⟩ := Prod.mk.inj heq
  have hs := Machine.traced_of_trace hsh
  exact ⟨hfit, s, h, hs, hwaiting, hlog, orderly_of_traced hfit hs⟩

end Lowering

end ScriptMachine
