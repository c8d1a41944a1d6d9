import ScriptMachine.Proofs.Machine.Order

/-!
# Runs under a plan

Whatever the commands of a program answer, the state and the history of its run follow a plan: the log
of every frame that is alive is ready for the outlook at its point. A step keeps this, so all logs of a
run are orderly.

The run may start on top of a stack `base` about which nothing is known, and is followed until that
stack is reached again.
-/

namespace ScriptMachine

/-- An instruction at a point of a block that leaves `X` takes the outcome of a block that leaves the
given outlook. -/
def Outlooks.Serves (A : Outlooks) (b : BlockId) (ip : Int64) (X : Outlook) :
    After → Outlook → Prop
  | .arm dest | .cleanup dest _ => A.Behind b ip dest X
  | .body dest g => g.Recovers A (A.Behind b ip dest X)
  | .handler dest g => g.Finishes A (A.Behind b ip dest X)

namespace Machine

variable {p : Program} {fr : Frame} {A : Outlooks} {b : BlockId} {ip : Int64} {o z : Outlook}

/-- What an instruction may ask for, by the outlooks; `out` is the register that it writes. -/
def Asks (p : Program) (fr : Frame) (A : Outlooks) (b : BlockId) (ip : Int64) (o z : Outlook)
    (out : Reg) : Action → Prop
  | .next fr' skip => fr'.func = fr.func ∧ out ∈ o.regs ∧ A.Goes b (ip + skip + 1) o z
  | .leave .. => True
  | .call c dest => p.Defines c.func ∧ A.Behind b ip dest z o
  | .enter c after => ∃ z', A.Opens c o z' ∧ A.Serves b ip z after z'

theorem asks_of_mayAsk {x : Instr} (hx : x.Moves A b ip o z) {a : Action} (h : x.MayAsk p fr a) :
    Asks p fr A b ip o z x.out a := by
  cases h with
  | write hs hw =>
    have hb := hs.moves_iff.mp hx
    exact ⟨Frame.func_write hw, hb.1, by simpa using hb.2⟩
  | call hcall hdef _ => exact ⟨hdef, (Instr.straight_of_isCall hcall).moves_iff.mp hx⟩
  | circuit hd hfr =>
    refine ⟨?_, hx.1, ?_⟩
    · rcases hfr with rfl | ⟨v, hw⟩
      · rfl
      · exact Frame.func_write hw
    · rcases hd with rfl | rfl
      · simpa using hx.2.1
      · exact hx.2.2
  | pass hw =>
    obtain ⟨z', hz', ⟨hdest, o', ho', hat⟩, -⟩ := hx
    exact ⟨Frame.func_write hw, hz'.2 hdest, o', Outlook.le_trans ho' hz', by simpa using hat⟩
  | arm hc hne =>
    obtain ⟨z', -, hb, hopen⟩ := hx
    exact ⟨z', hopen _ hc hne, hb⟩
  | body => exact hx
  | leave => trivial

end Machine

namespace Plan

variable {p : Program} {K : Plan p} {base : List Waiting} {cfg : RunConfig} {s : State} {f : Func}
  {b : BlockId} {ip : Int64} {o z X : Outlook} {log : Log} {logs : List Log}

/-! ## What is left at the end of a block -/

theorem le_of_goes (h : (K.At f).Goes b ip o z) : z ≤ o := by
  obtain ⟨o', ho', hat⟩ := h
  exact Outlook.le_trans (K.le hat) ho'

theorem le_of_behind {dest : Reg} (h : (K.At f).Behind b ip dest z o) : z ≤ o := le_of_goes h.2

theorem le_of_opens (h : (K.At f).Opens b o z) : z ≤ o := by
  obtain ⟨-, o', ho', -, hat⟩ := h
  exact Outlook.le_trans (K.le hat) ho'

/-! ## The invariant -/

/-- All that waits for a block of `f` that leaves `z`, above `base`, with the logs of its frames. -/
inductive Waits (K : Plan p) (base : List Waiting) :
    Func → Outlook → List Waiting → List Log → Prop
  | base {f : Func} {z : Outlook} : K.Waits base f z base []
  | within {f : Func} {z X : Outlook} {site after ws} {logs : List Log}
      (hcode : site.code.toList = f.code site.block)
      (ha : (K.At f).Serves site.block site.ip X after z) (hws : K.Waits base f X ws logs) :
      K.Waits base f z (.within site after :: ws) logs
  | caller {f : Func} {z X o : Outlook} {fr site dest ws} {log : Log} {logs : List Log}
      (hdef : p.Defines fr.func)
      (hcode : site.code.toList = fr.func.code site.block) (hlog : Log.Ready log o)
      (hb : (K.At fr.func).Behind site.block site.ip dest X o)
      (hws : K.Waits base fr.func X ws logs) :
      K.Waits base f z (.caller fr site dest :: ws) (log :: logs)

/-- A state and its history follow a plan. -/
structure Follows (K : Plan p) (base : List Waiting) (s : State) (h : History) : Prop where
  defines : p.Defines s.frame.func
  running : ∃ z, K.Waits base s.frame.func z s.stack.entries h.waiting ∧
    match s.ended with
    | some _ => Log.Ready h.log z
    | none => s.site.code.toList = s.frame.func.code s.site.block ∧
      ∃ o, K.At s.frame.func s.site.block s.site.ip o z ∧ Log.Ready h.log o

/-- The logs of the callers that wait are orderly. -/
theorem Waits.orderly {ws : List Waiting} (h : K.Waits base f z ws logs) :
    ∀ log ∈ logs, log.Orderly := by
  induction h with
  | base => simp
  | within _ _ _ ih => exact ih
  | caller _ _ hlog _ _ ih => exact List.forall_mem_cons.mpr ⟨hlog.orderly, ih⟩

theorem Follows.orderly {h : History} (hs : K.Follows base s h) :
    ∀ log ∈ h.log :: h.waiting, log.Orderly := by
  obtain ⟨-, z, hws, hlog⟩ := hs
  refine List.forall_mem_cons.mpr ⟨?_, hws.orderly⟩
  split at hlog
  · exact hlog.orderly
  · obtain ⟨-, o, -, hlog⟩ := hlog
    exact hlog.orderly

/-! ## Changes of a state -/

/-- A state at an instruction of its block, which leaves `X`, with all that waits for the block. -/
structure Stands (K : Plan p) (base : List Waiting) (s : State) (X : Outlook) (logs : List Log) :
    Prop where
  defines : p.Defines s.frame.func
  code : s.site.code.toList = s.frame.func.code s.site.block
  waits : K.Waits base s.frame.func X s.stack.entries logs

namespace Stands

section
variable (h : K.Stands base s X logs)
include h

theorem withWorld (w : World) : K.Stands base { s with world := w } X logs :=
  ⟨h.defines, h.code, h.waits⟩

theorem withFrame {fr : Frame} (hfr : fr.func = s.frame.func) :
    K.Stands base { s with frame := fr } X logs :=
  ⟨hfr ▸ h.defines, hfr ▸ h.code, hfr ▸ h.waits⟩

theorem finish (hlog : Log.Ready log X) (oc : Outcome) : K.Follows base (s.finish oc) ⟨log, logs⟩ :=
  ⟨h.defines, X, h.waits, hlog⟩

theorem advance {fr : Frame} (hfr : fr.func = s.frame.func)
    {skip : Int64} (hgoes : (K.At s.frame.func).Goes s.site.block (s.site.ip + skip + 1) o X)
    (hlog : Log.Ready log o) : K.Follows base (s.advance fr skip) ⟨log, logs⟩ := by
  obtain ⟨hdef, hcode, hws⟩ := h.withFrame hfr
  obtain ⟨o', ho', hat⟩ := hgoes
  refine ⟨hdef, X, hws, hcode, o', ?_, hlog.mono ho'⟩
  rw [State.advance, hfr]
  exact hat

theorem store {dest : Reg}
    (hb : (K.At s.frame.func).Behind s.site.block s.site.ip dest X o) (hlog : Log.Ready log o)
    (v : Value) : K.Follows base (s.store dest v) ⟨log ++ [.write dest], logs⟩ := by
  have hwritten := hlog.append_write hb.1
  unfold State.store
  split
  · rename_i fr hw
    exact h.advance (Frame.func_write hw) (by simpa using hb.2) hwritten
  · exact h.finish (hwritten.mono (le_of_behind hb)) _

theorem enter (cfg : RunConfig) (after : After)
    (ha : (K.At s.frame.func).Serves s.site.block s.site.ip X after z) {c : BlockId}
    (hc : (K.At s.frame.func).Opens c o z) (hlog : Log.Ready log o) :
    K.Follows base (s.enter cfg c after) ⟨log ++ Machine.enterLog cfg s c, logs⟩ := by
  have hpush : K.Waits base s.frame.func z (s.stack.push (.within s.site after)).entries logs :=
    .within h.code ha h.waits
  have hleft := hlog.mono (le_of_opens hc)
  unfold State.enter Machine.enterLog Machine.startLog State.start
  dsimp only
  split
  · split
    · rename_i k hk
      obtain ⟨hle, o', ho', hlt, hat⟩ := hc
      rw [hk]
      exact ⟨h.defines, z, hpush, (Func.code_of_block? hk).symm, o', hat,
        hlog.append_enter hle ho' hlt⟩
    · rename_i hk
      rw [hk]
      exact ⟨h.defines, z, hpush, by simpa using hleft⟩
  · exact ⟨h.defines, z, hpush, by simpa using hleft⟩

end

end Stands

/-- A frame in front of its first block. -/
theorem follows_start {fr : Frame} (hdef : p.Defines fr.func) (stack : Stack)
    (hws : ∀ z, K.Waits base fr.func z stack.entries logs) (rs : List Reg) (c : BlockId) :
    K.Follows base (s.start fr c stack) ⟨rs.map .write ++ Machine.startLog fr c, logs⟩ := by
  unfold State.start Machine.startLog
  split
  · rename_i k hk
    have hhas := (Func.isSome_block?_iff fr.func c).mp (by simp [hk])
    obtain ⟨o, z, hlt, hat⟩ := K.start hdef hhas
    rw [hk]
    exact ⟨hdef, z, hws z, (Func.code_of_block? hk).symm, o, hat, .start rs hlt _ (.inl rfl)⟩
  · rename_i hk
    rw [hk]
    exact ⟨hdef, ⟨c.index + 1, ∅⟩, hws _, .start rs (Int.lt_succ c.index) _ (.inr rfl)⟩

namespace Stands

section
variable (h : K.Stands base s X logs) {dest : Reg}
include h

theorem call {c : Callee} (hc : p.Defines c.func)
    (hb : (K.At s.frame.func).Behind s.site.block s.site.ip dest X o) (hlog : Log.Ready log o)
    {t : State} (ht : s.call cfg c dest = .ok t) :
    K.Follows base t (Machine.recordCall cfg s c ⟨log, logs⟩) := by
  have hleft := hlog.mono (le_of_behind hb)
  unfold Machine.recordCall
  cases Machine.called ht with
  | tooDeep hdeep =>
    rw [if_pos hdeep]
    exact h.finish hleft _
  | unbound hdeep hnew hw =>
    rw [if_neg hdeep, hnew]
    dsimp only
    rw [hw]
    exact h.finish hleft _
  | start hdeep hnew hw hfunc =>
    rw [if_neg hdeep, hnew]
    dsimp only
    rw [hw]
    have h := follows_start (s := s) (hfunc ▸ hc) (s.stack.push (.caller s.frame s.site dest))
      (fun z => .caller h.defines h.code hlog hb h.waits) (c.binds.map (·.1)) c.start
    rwa [List.map_map] at h

/-! ## The end of a block -/

theorem conclude (hb : (K.At s.frame.func).Behind s.site.block s.site.ip dest X o)
    (hlog : Log.Ready log o) (oc : Outcome) :
    K.Follows base (Machine.conclude s dest oc) ⟨log ++ Machine.concludeLog dest oc, logs⟩ := by
  have hleft := hlog.mono (le_of_behind hb)
  match oc with
  | .fault f => exact h.finish (by simpa [Machine.concludeLog] using hleft) _
  | .value v .ret => exact h.finish (by simpa [Machine.concludeLog] using hleft) _
  | .value v .yield => exact h.store hb hlog v

theorem cleanUp (cfg : RunConfig) {g : Guard} (hg : g.Finishes (K.At s.frame.func)
      ((K.At s.frame.func).Behind s.site.block s.site.ip dest X) o)
    (hlog : Log.Ready log o) (oc : Outcome) :
    K.Follows base (Machine.cleanUp cfg s dest g oc)
      ⟨log ++ Machine.cleanUpLog cfg s dest g oc, logs⟩ := by
  unfold Machine.cleanUp Machine.cleanUpLog
  unfold Guard.Finishes at hg
  split at hg
  · rename_i hnone
    rw [if_pos hnone, if_pos hnone]
    exact h.conclude hg hlog oc
  · rename_i hsome
    obtain ⟨z', hopens, hb⟩ := hg
    rw [if_neg hsome, if_neg hsome]
    exact h.enter cfg (.cleanup dest oc) hb hopens hlog

theorem handle {g : Guard} (hg : g.Recovers (K.At s.frame.func)
      ((K.At s.frame.func).Behind s.site.block s.site.ip dest X) o)
    (hlog : Log.Ready log o) (oc : Outcome) :
    K.Follows base (Machine.handle cfg s dest g oc)
      ⟨log ++ Machine.handleLog cfg s dest g oc, logs⟩ := by
  obtain ⟨z', hz', hhandler, hfin⟩ := hg
  have hclean := h.cleanUp cfg hfin (hlog.mono hz')
  unfold Machine.handle Machine.handleLog
  cases oc with
  | value v exit => exact hclean _
  | fault f =>
    dsimp only
    by_cases hnone : g.handler = .none
    · rw [if_pos hnone, if_pos hnone]
      exact hclean _
    · obtain ⟨hcaught, hopens⟩ := hhandler hnone
      have hwritten := hlog.append_write hcaught
      rw [if_neg hnone, if_neg hnone]
      cases hv : f.caught? with
      | none => exact hclean _
      | some v =>
        dsimp only
        cases hw : s.frame.write g.caught v with
        | error e =>
          have h := h.cleanUp cfg hfin (hwritten.mono hz') (.fault { cause := e })
          rwa [List.append_assoc] at h
        | ok fr =>
          have hfunc := Frame.func_write hw
          have h := (h.withFrame hfunc).enter cfg (.handler dest g) (z := z') (hfunc ▸ hfin)
            (hfunc ▸ hopens) hwritten
          rwa [List.append_assoc] at h

theorem resume {after : After} (ha : (K.At s.frame.func).Serves s.site.block s.site.ip X after z)
    (hlog : Log.Ready log z) (oc : Outcome) :
    K.Follows base (Machine.resume cfg s after oc)
      ⟨log ++ Machine.resumeLog cfg s after oc, logs⟩ := by
  cases after with
  | arm dest => exact h.conclude ha hlog oc
  | body dest g => exact h.handle ha hlog oc
  | handler dest g => exact h.cleanUp cfg ha hlog oc
  | cleanup dest pending =>
    match oc with
    | .value v .yield => exact h.conclude ha hlog pending
    | .value v .ret => exact h.conclude ha hlog (.value v .ret)
    | .fault f => exact h.conclude ha hlog (.fault f)

/-! ## Steps and runs -/

theorem execute {x : Instr} (hreads : ∀ r, .reg r ∈ x.ins → r ∉ o.regs)
    (hmoves : x.Moves (K.At s.frame.func) s.site.block s.site.ip o X) (hX : X ≤ o)
    (hlog : Log.Ready log o) {t : State} (ht : Machine.Executed cfg p s x t) :
    K.Follows base t (Machine.recordInstr cfg p s x ⟨log, logs⟩) := by
  have hread := hlog.append_reads hreads
  have hleft := hread.mono hX
  unfold Machine.recordInstr
  cases ht with
  | fail hp | leave hp =>
    rw [hp]
    exact (h.withWorld _).finish (by simpa [Machine.actionLog] using hleft) _
  | @next w fr skip hp ha =>
    obtain ⟨hfunc, hout, hgoes⟩ := Machine.asks_of_mayAsk hmoves ha
    have hwritten := hread.append_write hout
    rw [hp]
    refine (h.withWorld w).advance hfunc hgoes ?_
    rwa [List.append_assoc] at hwritten
  | @enter w b after hp ha =>
    obtain ⟨z', hopens, hserves⟩ := Machine.asks_of_mayAsk hmoves ha
    rw [hp]
    have h := (h.withWorld w).enter cfg after hserves hopens hread
    rwa [List.append_assoc] at h
  | @call w c dest t hp ha ht =>
    obtain ⟨hdef, hb⟩ := Machine.asks_of_mayAsk hmoves ha
    rw [hp]
    exact (h.withWorld w).call hdef hb hread ht

end

end Stands

/-- The state in which a call is taken up again. -/
theorem Waits.caller_of_pop? (hws : K.Waits base f z s.stack.entries logs) {fr : Frame} {site : Site}
    {dest : Reg} {stack : Stack} (hpop : s.stack.pop? = some (.caller fr site dest, stack))
    (hbase : s.stack.entries ≠ base) :
    ∃ X o log logs', logs = log :: logs' ∧
      K.Stands base { s with frame := fr, site, stack, ended := none } X logs' ∧
      (K.At fr.func).Behind site.block site.ip dest X o ∧ Log.Ready log o := by
  rw [Stack.entries_of_pop? hpop] at hws hbase
  cases hws with
  | base => exact absurd rfl hbase
  | caller hdef hcode hlog hb hws => exact ⟨_, _, _, _, rfl, ⟨hdef, hcode, hws⟩, hb, hlog⟩

theorem follows_unwind {h : History} (hs : K.Follows base s h) {oc : Outcome}
    (ho : s.ended = some oc) {t : State} (ht : Machine.Unwound cfg s oc t)
    (hbase : s.stack.entries ≠ base) : K.Follows base t (Machine.recordEnd cfg s oc h) := by
  obtain ⟨hdef, z, hws, hlog⟩ := hs
  rw [ho] at hlog
  obtain ⟨log, logs⟩ := h
  unfold Machine.recordEnd
  cases ht with
  | fail hpop =>
    rw [hpop]
    obtain ⟨X, o, log, logs, rfl, h, hb, hlog⟩ := hws.caller_of_pop? hpop hbase
    exact h.finish (by simpa [Machine.returnLog] using hlog.mono (le_of_behind hb)) _
  | store hpop =>
    rw [hpop]
    obtain ⟨X, o, log, logs, rfl, h, hb, hlog⟩ := hws.caller_of_pop? hpop hbase
    exact h.store hb hlog _
  | resume hpop =>
    rw [hpop]
    rw [Stack.entries_of_pop? hpop] at hws hbase
    cases hws with
    | base => exact absurd rfl hbase
    | within hcode ha hws =>
      have h : K.Stands base { s with site := _, stack := _, ended := none } _ _ := ⟨hdef, hcode, hws⟩
      exact h.resume ha hlog oc

/-- A step keeps to the plan, unless it goes back to the stack that the run started with. -/
theorem follows_step {h : History} (hs : K.Follows base s h) {t : State}
    (ht : Machine.step cfg p s = .state t) (hbase : s.ended.isSome → s.stack.entries ≠ base) :
    K.Follows base t (Machine.record cfg p s h) := by
  unfold Machine.record
  cases Machine.stepped ht with
  | unwind ho ht =>
    rw [ho]
    exact follows_unwind hs ho ht (hbase (by simp [ho]))
  | execute hrunning hx ht =>
    obtain ⟨hdef, z, hws, hrun⟩ := hs
    rw [hrunning] at hrun ⊢
    obtain ⟨hcode, o, hat, hlog⟩ := hrun
    obtain ⟨hip, hx⟩ := Site.instr?_eq_some_iff.mp hx
    have hx' := hx
    rw [← Array.getElem?_toList, hcode] at hx'
    obtain ⟨o', ho', hz, hreads, hmoves⟩ := K.obeys hdef hat hip hx'
    dsimp only
    rw [hx]
    exact Stands.execute ⟨hdef, hcode, hws⟩ hreads hmoves hz (hlog.mono ho') ht
  | runOff hrunning hip hx =>
    obtain ⟨hdef, z, hws, hrun⟩ := hs
    rw [hrunning] at hrun ⊢
    obtain ⟨hcode, o, hat, hlog⟩ := hrun
    have hx : s.site.code[s.site.ip.toInt.toNat]? = none := by
      rwa [Site.instr?, if_neg (not_lt.mpr hip)] at hx
    dsimp only
    rw [hx]
    exact Stands.finish ⟨hdef, hcode, hws⟩ (hlog.mono (K.le hat)) _

theorem follows_initial (K : Plan p) (h : Machine.initial p = .ok (.ok s)) :
    K.Follows [] s (Machine.initialHistory s) := by
  obtain ⟨f, fr, fr', site, hf, -, -, rfl, rfl⟩ := Machine.initial_eq_ok h
  have hdef := Program.defines_of_func? hf
  unfold Machine.initialHistory
  rw [State.frame_start]
  exact follows_start hdef {} (fun z => .base) fr'.func.paramRegs fr'.func.entry

/-- All states of a run follow a plan. -/
theorem follows_traced (K : Plan p) {h : History} (hs : Machine.Traced cfg p s h) :
    K.Follows [] s h := by
  induction hs with
  | initial h => exact K.follows_initial h
  | @step s t h _ ht ih =>
    refine follows_step ih ht fun hended hempty => ?_
    -- with an empty stack the end of a block is the end of the run
    obtain ⟨oc, hoc⟩ := Option.isSome_iff_exists.mp hended
    unfold Machine.step at ht
    rw [hoc] at ht
    unfold Machine.unwind at ht
    rw [(Stack.pop?_eq_none_iff s.stack).mpr hempty] at ht
    cases ht

end Plan

end ScriptMachine
