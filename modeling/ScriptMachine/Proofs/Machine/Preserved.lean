import ScriptMachine.Proofs.Machine.Performed

/-!
# Runs under a certificate

The invariant of a certificate holds initially and is kept by every step, so a run of a certified
program raises only faults that the certificate permits.
-/

namespace ScriptMachine

namespace Certificate

variable {σ : Safety} {p : Program} {K : Certificate σ p} {fr fr' : Frame} {s : State}
  {D X Y : Set Reg} {ws : List Waiting} {cfg : RunConfig} {o : Outcome} {dest : Reg} {t : State}
  {after : After}

/-! ## Frames that grow -/

theorem Ends.mono (h : K.Ends fr X o) (hg : σ.Grows fr fr') : K.Ends fr' X o := by
  cases o with
  | fault f => exact h
  | value v exit => exact ⟨h.1, fun he => (h.2 he).mono hg⟩

/-- An outcome that is passed on promises nothing. -/
theorem Ends.forget (h : K.Ends fr X o) : K.Ends fr ∅ o := by
  cases o with
  | fault f => exact h
  | value v exit => exact ⟨h.1, fun _ => Safety.covers_empty fr⟩

theorem Serves.mono {site : Site} (h : K.Serves fr site D X Y after)
    (hg : σ.Grows fr fr') : K.Serves fr' site D X Y after := by
  cases after with
  | arm dest | body dest g | handler dest g => simpa only [Serves, hg.func] using h
  | cleanup dest pending =>
    obtain ⟨hb, hp⟩ := h
    exact ⟨by rwa [hg.func], hp.mono hg⟩

theorem Waits.mono (h : K.Waits fr Y ws) (hg : σ.Grows fr fr') : K.Waits fr' Y ws := by
  induction h generalizing fr' with
  | nil => exact .nil
  | caller hfr hD hb hws => exact .caller hfr hD hb hws
  | within hD ha _ ih => exact .within (hD.mono hg) (ha.mono hg) (ih hg)

/-! ## Changes of a state -/

/-- A state with the registers `D` set, and with all that waits for its block, which promises `X`. -/
structure Stands (K : Certificate σ p) (s : State) (D X : Set Reg) : Prop where
  carries : K.Carries s.frame
  waits : K.Waits s.frame X s.stack.entries
  covers : σ.Covers s.frame D

theorem Stands.withWorld (h : K.Stands s D X) (w : World) : K.Stands { s with world := w } D X :=
  ⟨h.carries, h.waits, h.covers⟩

theorem Stands.covering (h : K.Stands s D X) (hY : σ.Covers s.frame Y) : K.Stands s (D ∪ Y) X :=
  ⟨h.carries, h.waits, h.covers.union hY⟩

theorem Stands.finish (h : K.Stands s D X) (ho : K.Ends s.frame X o) : K.Invariant (s.finish o) :=
  ⟨h.carries, X, h.waits, ho⟩

theorem Stands.fail (h : K.Stands s D X) {f : Fault} (hf : K.Permits f.cause) :
    K.Invariant (s.fail f) :=
  h.finish (by rwa [Ends, Fault.locate_cause])

theorem invariant_advance (hfr : K.Carries fr) (hws : K.Waits fr X s.stack.entries)
    (hcode : s.site.code.toList = fr.func.code s.site.block) (hD : σ.Covers fr D) {skip : Int64}
    (hat : K.At fr.func s.site.block (s.site.ip + skip + 1) D X) :
    K.Invariant (s.advance fr skip) :=
  ⟨hfr, X, hws, D, hcode, hD, hat⟩

theorem Stands.store (h : K.Stands s D X) (hb : K.Behind s.frame.func s.site dest D X) {v : Value}
    (hv : K.Holds v) : K.Invariant (s.store dest v) := by
  have hgives := gives_write h.carries h.covers hv hb.range
  unfold State.store
  cases hw : s.frame.write dest v with
  | error c =>
    rw [hw] at hgives
    exact h.fail hgives
  | ok fr' =>
    rw [hw] at hgives
    obtain ⟨hfr', hg, hD'⟩ := hgives
    refine invariant_advance hfr' (h.waits.mono hg) ?_ hD' ?_
    · rw [hg.func]
      exact hb.code
    · rw [hg.func]
      simpa using hb.next

theorem invariant_start (hfr : K.Carries fr) {b : BlockId} (hat : K.At fr.func b 0 D X)
    (hD : σ.Covers fr D) {stack : Stack} (hws : K.Waits fr X stack.entries) :
    K.Invariant (s.start fr b stack) := by
  obtain ⟨k, hk⟩ := Func.block?_eq_some_of_has (K.has hat)
  unfold State.start
  rw [hk]
  exact ⟨hfr, X, hws, D, (Func.code_of_block? hk).symm, hD, hat⟩

theorem Stands.enter (h : K.Stands s D X) (ha : K.Serves s.frame s.site D X Y after)
    {b : BlockId} {E : Set Reg} (hE : σ.Covers s.frame E) (hat : K.At s.frame.func b 0 E Y) :
    K.Invariant (s.enter cfg b after) := by
  have hpush : K.Waits s.frame Y (s.stack.push (.within s.site after)).entries :=
    .within h.covers ha h.waits
  unfold State.enter
  dsimp only
  split
  · exact invariant_start h.carries hat hE hpush
  · exact ⟨h.carries, Y, hpush, trivial⟩

theorem gives_new {f : Func} (hdef : p.Defines f) (hnew : Frame.new f = .ok fr)
    {binds : List (Reg × Value)} (hb : ∀ b ∈ binds, K.Holds b.2 ∧ (σ.writes → f.InRange b.1)) :
    K.Gives (fr.writeAll binds) fun fr' =>
      K.Carries fr' ∧ fr'.func = f ∧ σ.Covers fr' {r | r ∈ binds.map (·.1)} := by
  have hget := Frame.get?_new hnew
  obtain ⟨-, rfl⟩ := Frame.new_eq_ok_iff.mp hnew
  have hfr : K.Carries ⟨f, Array.replicate f.numRegs.toNat .unset⟩ :=
    ⟨hdef, by simp, fun r v hv => by simp [hget r] at hv⟩
  have h := gives_writeAll hfr (Safety.covers_empty _) hb
  rwa [Set.empty_union] at h

theorem Stands.call (h : K.Stands s D X) {c : Callee} (hc : K.Calls c)
    (hb : K.Behind s.frame.func s.site dest D X) (ht : s.call cfg c dest = .ok t) : K.Invariant t := by
  cases Machine.called ht with
  | tooDeep => exact h.fail (hc.tooDeep _)
  | unbound _ hnew hw =>
    have hgives := gives_new hc.defines hnew hc.binds
    rw [hw] at hgives
    exact h.fail hgives
  | start _ hnew hw =>
    have hgives := gives_new hc.defines hnew hc.binds
    rw [hw] at hgives
    obtain ⟨hcarries, hfunc, hcovers⟩ := hgives
    obtain ⟨E, hat, hE⟩ := hc.start
    exact invariant_start hcarries (by rwa [hfunc]) (fun hσ r hr => hcovers hσ r (hE hr))
      (.caller h.carries h.covers hb h.waits)

/-! ## The end of a block -/

theorem holds_of_caught? {f : Fault} (hf : K.Permits f.cause) {v : Value} (h : f.caught? = some v) :
    K.Holds v := by
  unfold Fault.caught? at h
  split at h
  · rename_i u hu
    rw [hu] at hf
    exact Option.some.inj h ▸ hf
  · cases h
  · cases h
  · cases h
  · exact Option.some.inj h ▸ holds_string _

theorem Stands.conclude (h : K.Stands s D X) (hb : K.Behind s.frame.func s.site dest D X)
    (ho : K.Ends s.frame Y o) : K.Invariant (Machine.conclude s dest o) := by
  match o, ho with
  | .fault f, ho => exact h.fail ho
  | .value v .ret, ho => exact h.finish ⟨ho.1, by simp⟩
  | .value v .yield, ho => exact h.store hb ho.1

theorem Stands.cleanUp (h : K.Stands s D X) {g : Guard}
    (hg : g.CleansUp (K.At s.frame.func) D (K.Behind s.frame.func s.site dest · X))
    (ho : K.Ends s.frame Y o) : K.Invariant (Machine.cleanUp cfg s dest g o) := by
  unfold Machine.cleanUp
  unfold Guard.CleansUp at hg
  split at hg
  · rename_i hnone
    rw [if_pos hnone]
    exact h.conclude hg ho
  · rename_i hsome
    obtain ⟨Z, hat, hb⟩ := hg
    rw [if_neg hsome]
    have hserves : K.Serves s.frame s.site D X Z (.cleanup dest o) := ⟨hb, ho.forget⟩
    exact h.enter hserves h.covers hat

theorem Stands.handle (h : K.Stands s D X) {g : Guard}
    (hh : g.Handles σ (K.At s.frame.func) s.frame.func D)
    (hg : g.CleansUp (K.At s.frame.func) D (K.Behind s.frame.func s.site dest · X))
    (ho : K.Ends s.frame Y o) : K.Invariant (Machine.handle cfg s dest g o) := by
  unfold Machine.handle
  split
  · exact h.cleanUp hg ho
  · rename_i f
    split
    · exact h.cleanUp hg ho
    · rename_i hsome
      split
      · exact h.cleanUp hg ho
      · rename_i v hv
        obtain ⟨hrange, hat⟩ := hh hsome
        have hwrite := gives_write h.carries h.covers (holds_of_caught? ho hv) hrange
        split
        · rename_i e he
          rw [he] at hwrite
          have hfault : K.Ends s.frame ∅ (.fault { cause := e }) := hwrite
          exact h.cleanUp hg hfault
        · rename_i fr' hfr'
          rw [hfr'] at hwrite
          obtain ⟨hcarries, hgrow, hcovers⟩ := hwrite
          have hfunc := hgrow.func
          have h : K.Stands { s with frame := fr' } D X :=
            ⟨hcarries, h.waits.mono hgrow, h.covers.mono hgrow⟩
          refine h.enter (Y := ∅) ?_ hcovers ?_
          · simpa only [Serves, hfunc] using hg
          · simpa only [hfunc] using hat

theorem Stands.resume (h : K.Stands s D X) (ha : K.Serves s.frame s.site D X Y after)
    (ho : K.Ends s.frame Y o) : K.Invariant (Machine.resume cfg s after o) := by
  cases after with
  | arm dest => exact h.conclude ha ho
  | body dest g => exact h.handle ha.1 ha.2 ho
  | handler dest g => exact h.cleanUp ha ho
  | cleanup dest pending =>
    obtain ⟨hb, hpending⟩ := ha
    -- only a yield of the cleanup promises its registers, and only then they are needed
    match o, ho with
    | .value v .yield, ho => exact (h.covering (ho.2 rfl)).conclude hb hpending
    | .value v .ret, ho => exact h.finish ⟨ho.1, by simp⟩
    | .fault f, ho => exact h.fail ho

theorem invariant_unwind (h : K.Invariant s) (ho : s.ended = some o)
    (ht : Machine.Unwound cfg s o t) : K.Invariant t := by
  obtain ⟨hfr, X, hws, hends⟩ := h
  rw [ho] at hends
  cases ht with
  | fail hpop =>
    rw [Stack.entries_of_pop? hpop] at hws
    cases hws with
    | caller hfr hD hb hws => exact Stands.fail ⟨hfr, hws, hD⟩ hends
  | store hpop =>
    rw [Stack.entries_of_pop? hpop] at hws
    cases hws with
    | caller hfr hD hb hws => exact Stands.store ⟨hfr, hws, hD⟩ hb hends.1
  | @resume site after stack _ hpop =>
    rw [Stack.entries_of_pop? hpop] at hws
    cases hws with
    | within hD ha hws =>
      have h : K.Stands { s with site, stack, ended := none } _ _ := ⟨hfr, hws, hD⟩
      exact h.resume ha hends

/-! ## Steps and runs -/

theorem Stands.execute (h : K.Stands s D X) (hcfg : cfg.ClosureFree)
    (hcode : s.site.code.toList = s.frame.func.code s.site.block) {x : Instr}
    (hx : x.Obeys σ (K.At s.frame.func) s.frame.func s.site.block s.site.ip D X)
    (ht : Machine.Executed cfg p s x t) : K.Invariant t := by
  have hgives := gives_perform h.carries h.covers hcfg hcode s.world hx
  cases ht with
  | @fail w _ hp =>
    rw [hp] at hgives
    exact (h.withWorld w).fail hgives
  | @next w _ _ hp =>
    rw [hp] at hgives
    obtain ⟨hfr', hg, E, hE, hat⟩ := hgives
    refine invariant_advance (s := { s with world := w }) hfr' (h.waits.mono hg) ?_ hE ?_
    · rw [hg.func]
      exact hcode
    · rw [hg.func]
      exact hat
  | @leave w _ _ hp =>
    rw [hp] at hgives
    exact (h.withWorld w).finish hgives
  | @enter w _ _ hp =>
    rw [hp] at hgives
    obtain ⟨Y, hat, hserves⟩ := hgives
    exact (h.withWorld w).enter hserves h.covers hat
  | @call w _ _ _ hp _ ht =>
    rw [hp] at hgives
    exact (h.withWorld w).call hgives.1 hgives.2 ht

theorem invariant_step (hcfg : cfg.ClosureFree) (h : K.Invariant s)
    (ht : Machine.step cfg p s = .state t) : K.Invariant t := by
  cases Machine.stepped ht with
  | unwind ho ht => exact invariant_unwind h ho ht
  | execute hrunning hx ht =>
    obtain ⟨hfr, X, hws, hruns⟩ := h
    rw [hrunning] at hruns
    obtain ⟨D, hruns⟩ := hruns
    obtain ⟨hip, hx⟩ := Site.instr?_eq_some_iff.mp hx
    obtain ⟨y, hy, hobeys⟩ := K.obeys hfr.defines hruns.at_ip hip
    rw [← hruns.code, Array.getElem?_toList, hx] at hy
    obtain rfl := Option.some.inj hy
    exact Stands.execute ⟨hfr, hws, hruns.covers⟩ hcfg hruns.code hobeys ht
  | runOff hrunning hip hx =>
    obtain ⟨hfr, X, hws, hruns⟩ := h
    rw [hrunning] at hruns
    obtain ⟨D, hruns⟩ := hruns
    obtain ⟨y, hy, -⟩ := K.obeys hfr.defines hruns.at_ip hip
    rw [← hruns.code, Array.getElem?_toList] at hy
    rw [Site.instr?_eq_some_iff.mpr ⟨hip, hy⟩] at hx
    cases hx

/-- The first call is permitted to fail, or ends in a state with the invariant. -/
theorem gives_initial {r : Except Cause State} (h : Machine.initial p = .ok r) :
    K.Gives r K.Invariant := by
  unfold Machine.initial at h
  split at h
  · obtain rfl := Except.ok.inj h
    trivial
  · rename_i f hf
    have hdef := Program.defines_of_func? hf
    rw [bind_eq_ok_iff] at h
    obtain ⟨fr, hnew, h⟩ := h
    have hargs : ∀ b ∈ bindArgs f.paramRegs [], K.Holds b.2 ∧ (σ.writes → f.InRange b.1) := by
      intro b hb
      obtain ⟨hr, hv⟩ := holds_bindArgs (by simp) hb
      exact ⟨hv, fun hw => K.params hw hdef b.1 hr⟩
    have hgives := gives_new hdef hnew hargs
    split at h
    · rename_i e he
      rw [he] at hgives
      obtain rfl := Except.ok.inj h
      exact hgives
    · rename_i fr' hfr'
      rw [hfr'] at hgives
      obtain ⟨hcarries, hfunc, hcovers⟩ := hgives
      rw [map_fst_bindArgs] at hcovers
      obtain rfl := Except.ok.inj h
      exact invariant_start hcarries (by rw [hfunc]; exact K.entry hdef) hcovers .nil

/-- The invariant holds in every state of a run. -/
theorem invariant_reachable (K : Certificate σ p) (hcfg : cfg.ClosureFree)
    (h : Machine.Reachable cfg p s) : K.Invariant s := by
  induction h with
  | initial h => exact gives_initial h
  | step _ h ih => exact invariant_step hcfg ih h

theorem Waits.permits {ws : List Waiting} (h : K.Waits fr Y ws) {site : Site}
    {f : Fault} (hf : .within site (.cleanup dest (.fault f)) ∈ ws) : K.Permits f.cause := by
  induction h with
  | nil => cases hf
  | caller _ _ _ _ ih =>
    rcases List.mem_cons.mp hf with hf | hf
    · cases hf
    · exact ih hf
  | within _ ha _ ih =>
    rcases List.mem_cons.mp hf with hf | hf
    · cases hf
      exact ha.2
    · exact ih hf

/-- A certified program raises only what its certificate permits. -/
theorem permits_of_raises (K : Certificate σ p) (hcfg : cfg.ClosureFree) {c : Cause}
    (h : Machine.Raises cfg p c) : K.Permits c := by
  rcases h with h | ⟨s, hs, f, hf, rfl⟩
  · exact gives_initial h
  · obtain ⟨-, X, hws, hends⟩ := K.invariant_reachable hcfg hs
    rcases hf with hf | ⟨site, dest, hf⟩
    · rw [hf] at hends
      exact hends
    · exact hws.permits hf

end Certificate

end ScriptMachine
