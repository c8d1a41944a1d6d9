import ScriptMachine.Proofs.Machine.Certificate
import ScriptMachine.Proofs.Machine.Operators

/-!
# Instructions under a certificate

What `Machine.perform` asks for at a point that a certificate asserts. `Certificate.Gives m Q` says
that `m` gives something with `Q` or a fault that the certificate permits; it is closed under
sequences, so every instruction is followed part by part.
-/

namespace ScriptMachine

namespace Safety

variable {σ : Safety} {fr fr₁ fr₂ : Frame} {D E : Set Reg}

theorem Grows.refl (fr : Frame) : σ.Grows fr fr := ⟨rfl, fun _ _ => id⟩

theorem Covers.mono (h : σ.Covers fr D) (hg : σ.Grows fr fr₁) : σ.Covers fr₁ D :=
  fun hr r hD => hg.regs hr r (h hr r hD)

theorem Covers.union (hD : σ.Covers fr D) (hE : σ.Covers fr E) : σ.Covers fr (D ∪ E) :=
  fun hr r h => h.elim (hD hr r) (hE hr r)

theorem covers_empty (fr : Frame) : σ.Covers fr ∅ := fun _ _ h => h.elim

end Safety

namespace Certificate

variable {σ : Safety} {p : Program} {K : Certificate σ p} {fr : Frame} {site : Site}
  {D X : Set Reg} {α β : Type} {v : Value} {vs : List Value}

/-! ## Results -/

/-- A result with `Q`, or a fault that is permitted. -/
def Gives (K : Certificate σ p) (m : Except Cause α) (Q : α → Prop) : Prop :=
  match m with
  | .ok a => Q a
  | .error c => K.Permits c

theorem Gives.bind {m : Except Cause α} {f : α → Except Cause β} {P : α → Prop} {Q : β → Prop}
    (hm : K.Gives m P) (hf : ∀ a, P a → K.Gives (f a) Q) : K.Gives (m >>= f) Q := by
  cases m with
  | ok a => exact hf a hm
  | error c => exact hm

theorem Gives.mono {m : Except Cause α} {P Q : α → Prop} (h : K.Gives m P) (hPQ : ∀ a, P a → Q a) :
    K.Gives m Q := by
  cases m with
  | ok a => exact hPQ a h
  | error c => exact h

theorem gives_pure {a : α} {Q : α → Prop} (h : Q a) : K.Gives (pure a) Q := h

/-! ## Values -/

theorem holds_of_isSet (hne : ∀ c, v ≠ .closure c) (hset : v.isSet = true) : K.Holds v :=
  .plain hne fun _ => hset

theorem holds_null : K.Holds .null := holds_of_isSet (by simp) rfl

theorem holds_bool (b : Bool) : K.Holds (.bool b) := holds_of_isSet (by simp) rfl

theorem holds_string (s : String) : K.Holds (.string s) := holds_of_isSet (by simp) rfl

theorem Holds.isSet (h : K.Holds v) (hr : σ.reads) : v.isSet = true := by
  cases h with
  | plain _ hset => exact hset hr
  | closure _ _ => rfl

theorem Gives.of_computes {m : Except Cause Value} (h : Computes m) : K.Gives m K.Holds := by
  cases m with
  | ok v => exact holds_of_isSet (by rintro c rfl; cases h) (Value.isSet_of_isComputed h)
  | error c => cases c <;> trivial

/-! ## Registers -/

theorem gives_read (hfr : K.Carries fr) (hD : σ.Covers fr D) (hv : σ.Reads D v) :
    K.Gives (fr.read v) K.Holds := by
  cases v with
  | reg r =>
    cases h : fr.get? r with
    | some x =>
      rw [Frame.read_eq_ok_iff.mpr (.inl ⟨r, rfl, h⟩)]
      exact hfr.values r x h
    | none =>
      rw [Frame.read_eq_error_iff.mpr ⟨r, rfl, h, rfl⟩]
      intro hr
      have := hD hr r (hv hr)
      simp [h] at this
  | unset => exact .plain (by simp) fun hr => absurd hr hv
  | closure c => exact hv.elim
  | _ => exact holds_of_isSet (by simp) rfl

theorem gives_readAll (hfr : K.Carries fr) (hD : σ.Covers fr D)
    (hvs : ∀ v ∈ vs, σ.Reads D v) : K.Gives (fr.readAll vs) fun xs => ∀ x ∈ xs, K.Holds x := by
  induction vs with
  | nil => exact gives_pure (by simp)
  | cons v vs ih =>
    rw [Frame.readAll]
    refine (gives_read hfr hD (hvs v List.mem_cons_self)).bind fun x hx => ?_
    refine (ih fun u hu => hvs u (List.mem_cons_of_mem v hu)).bind fun xs hxs => ?_
    exact gives_pure (List.forall_mem_cons.mpr ⟨hx, hxs⟩)

theorem gives_write (hfr : K.Carries fr) (hD : σ.Covers fr D) {r : Reg} (hv : K.Holds v)
    (hr : σ.writes → fr.func.InRange r) : K.Gives (fr.write r v) fun fr' =>
      K.Carries fr' ∧ σ.Grows fr fr' ∧ σ.Covers fr' (insert r D) := by
  cases h : fr.write r v with
  | error c =>
    obtain ⟨hout, rfl⟩ := Frame.write_eq_error_iff.mp h
    intro hw
    obtain ⟨h₀, h₁⟩ := hr hw
    rw [hfr.size] at hout
    omega
  | ok fr' =>
    have hfunc := Frame.func_write h
    have hgrow : σ.Grows fr fr' := ⟨hfunc, fun hσ q hq => by
      by_cases hqr : q = r
      · simp [hqr, Frame.get?_write_self h (hv.isSet hσ)]
      · rwa [Frame.get?_write_of_ne h hqr]⟩
    refine ⟨⟨?_, ?_, fun q x hx => ?_⟩, hgrow, fun hσ q hq => ?_⟩
    · rw [hfunc]
      exact hfr.defines
    · rw [Frame.size_write h, hfunc, hfr.size]
    · rcases Frame.get?_of_write h hx with hx | ⟨-, rfl⟩
      · exact hfr.values q x hx
      · exact hv
    · rcases hq with rfl | hq
      · simp [Frame.get?_write_self h (hv.isSet hσ)]
      · exact hD.mono hgrow hσ q hq

theorem gives_writeAll {binds : List (Reg × Value)} (hfr : K.Carries fr) (hD : σ.Covers fr D)
    (hb : ∀ b ∈ binds, K.Holds b.2 ∧ (σ.writes → fr.func.InRange b.1)) :
    K.Gives (fr.writeAll binds) fun fr' =>
      K.Carries fr' ∧ fr'.func = fr.func ∧ σ.Covers fr' (D ∪ {r | r ∈ binds.map (·.1)}) := by
  induction binds generalizing fr D with
  | nil => exact gives_pure ⟨hfr, rfl, by simpa using hD⟩
  | cons b binds ih =>
    obtain ⟨r, v⟩ := b
    obtain ⟨⟨hv, hr⟩, hb⟩ := List.forall_mem_cons.mp hb
    rw [Frame.writeAll]
    refine (gives_write hfr hD hv hr).bind fun fr₁ ⟨hfr₁, hg, hD₁⟩ => ?_
    refine (ih hfr₁ hD₁ (by rw [hg.func]; exact hb)).mono fun fr₂ ⟨hfr₂, hfunc, hD₂⟩ => ?_
    refine ⟨hfr₂, hfunc.trans hg.func, fun hσ q hq => hD₂ hσ q ?_⟩
    simp only [List.map_cons, List.mem_cons, Set.mem_union, Set.mem_ofPred_eq,
      Set.mem_insert_iff] at hq ⊢
    tauto

/-! ## Calls -/

/-- A call that starts at a point that is asserted. -/
structure Calls (K : Certificate σ p) (c : Callee) : Prop where
  defines : p.Defines c.func
  start : ∃ E, K.At c.func c.start 0 E ∅ ∧ E ⊆ {r | r ∈ c.binds.map (·.1)}
  binds : ∀ b ∈ c.binds, K.Holds b.2 ∧ (σ.writes → c.func.InRange b.1)
  tooDeep : ∀ n, K.Permits (c.tooDeep n)

theorem holds_bindArgs {rs : List Reg} (hvs : ∀ v ∈ vs, K.Holds v)
    {b : Reg × Value} (hb : b ∈ bindArgs rs vs) : b.1 ∈ rs ∧ K.Holds b.2 := by
  obtain ⟨hr, hv | hv⟩ := mem_bindArgs hb
  · rw [hv]
    exact ⟨hr, holds_null⟩
  · exact ⟨hr, hvs _ hv⟩

theorem gives_calleeNamed (name : String) (hvs : ∀ v ∈ vs, K.Holds v) :
    K.Gives (Machine.calleeNamed p name vs) K.Calls := by
  unfold Machine.calleeNamed
  split
  · trivial
  · rename_i f hf
    have hdef := Program.defines_of_func? hf
    refine ⟨hdef, ⟨_, K.entry hdef, fun r hr => ?_⟩, fun b hb => ?_, fun _ => trivial⟩
    · rwa [map_fst_bindArgs]
    · obtain ⟨hr, hv⟩ := holds_bindArgs hvs hb
      exact ⟨hv, fun hw => K.params hw hdef b.1 hr⟩

theorem gives_calleeClosure {c : Closure Value} (hc : K.Holds (.closure c))
    (hvs : ∀ v ∈ vs, K.Holds v) : K.Gives (Machine.calleeClosure p c vs) K.Calls := by
  obtain ⟨hstart, hcaptured⟩ : _ ∧ ∀ cp ∈ c.captures, K.Holds cp.value := by
    cases hc with
    | plain hne => exact absurd rfl (hne c)
    | closure hstart hcaptured => exact ⟨hstart, hcaptured⟩
  unfold Machine.calleeClosure
  split
  · trivial
  · rename_i f hf
    obtain ⟨hat, hrange⟩ := hstart f hf
    refine ⟨Program.defines_of_func? hf, ⟨_, hat, fun r hr => ?_⟩, fun b hb => ?_,
      fun _ => trivial⟩
    · simpa [map_fst_bindArgs, givenRegs] using hr
    · rcases List.mem_append.mp hb with hb | hb
      · obtain ⟨cp, hcp, rfl⟩ := List.mem_map.mp hb
        exact ⟨hcaptured cp hcp, fun hw => hrange hw _ (.inl (List.mem_map_of_mem hcp))⟩
      · obtain ⟨hr, hv⟩ := holds_bindArgs hvs hb
        exact ⟨hv, fun hw => hrange hw b.1 (.inr hr)⟩

theorem gives_callHeld (hfr : K.Carries fr) (hD : σ.Covers fr D) {r : Reg} {args : List Value}
    (hargs : ∀ v ∈ .reg r :: args, σ.Reads D v) :
    K.Gives (Machine.callHeld p fr r args) K.Calls := by
  obtain ⟨hr, hargs⟩ := List.forall_mem_cons.mp hargs
  unfold Machine.callHeld
  cases h : fr.get? r with
  | none =>
    intro hσ
    have := hD hσ r (hr hσ)
    simp [h] at this
  | some v =>
    have hv := hfr.values r v h
    refine (gives_readAll hfr hD hargs).bind fun xs hxs => ?_
    unfold Machine.callee
    split
    · exact gives_calleeClosure hv hxs
    · exact gives_calleeNamed _ hxs
    · trivial

/-! ## Actions -/

/-- What an instruction at a site may ask for. -/
def Asks (K : Certificate σ p) (fr : Frame) (site : Site) (D X : Set Reg) : Action → Prop
  | .next fr' skip => K.Carries fr' ∧ σ.Grows fr fr' ∧
    ∃ E, σ.Covers fr' E ∧ K.At fr.func site.block (site.ip + skip + 1) E X
  | .leave v exit => K.Ends fr X (.value v exit)
  | .call c dest => K.Calls c ∧ K.Behind fr.func site dest D X
  | .enter b after => ∃ Y, K.At fr.func b 0 D Y ∧ K.Serves fr site D X Y after

section
variable (hfr : K.Carries fr) (hD : σ.Covers fr D)
include hfr hD

theorem gives_finish {dest : Reg} (hb : K.Behind fr.func site dest D X) (hv : K.Holds v) :
    K.Gives (Machine.finish fr dest v) (K.Asks fr site D X) := by
  have h := gives_write hfr hD hv hb.range
  unfold Machine.finish
  cases hw : fr.write dest v with
  | error c => rwa [hw] at h
  | ok fr' =>
    rw [hw] at h
    obtain ⟨hfr', hg, hD'⟩ := h
    exact ⟨hfr', hg, _, hD', by simpa using hb.next⟩

theorem gives_circuit {kind : Circuit} {dest : Reg}
    {left right : Value} {skip : Int64} (hl : σ.Reads D left)
    (hcode : site.code.toList = fr.func.code site.block) (hdest : σ.writes → fr.func.InRange dest)
    (hnext : K.At fr.func site.block (site.ip + 1) (if right.isReg then D else insert dest D) X)
    (haround : K.At fr.func site.block (site.ip + skip + 1) (insert dest D) X) :
    K.Gives (Machine.circuit fr kind dest left right skip) (K.Asks fr site D X) := by
  unfold Machine.circuit
  refine (gives_read hfr hD hl).bind fun l _ => ?_
  split
  · refine (gives_write hfr hD (holds_bool _) hdest).bind fun fr' ⟨hfr', hg, hD'⟩ => ?_
    exact gives_pure ⟨hfr', hg, _, hD', haround⟩
  · split
    · rename_i hreg
      rw [if_pos hreg] at hnext
      exact gives_pure ⟨hfr, .refl fr, D, hD, by simpa using hnext⟩
    · rename_i hreg
      rw [if_neg hreg] at hnext
      exact gives_finish hfr hD ⟨hcode, hdest, hnext⟩ holds_null

theorem gives_capture {cs : List (Capture Value)}
    (hcs : ∀ v ∈ cs.map (·.value), σ.Reads D v) : K.Gives (Machine.capture fr cs) fun cs' =>
      cs'.map (·.reg) = cs.map (·.reg) ∧ ∀ c ∈ cs', K.Holds c.value := by
  induction cs with
  | nil => exact gives_pure (by simp)
  | cons c cs ih =>
    rw [List.map_cons, List.forall_mem_cons] at hcs
    rw [Machine.capture]
    refine (gives_read hfr hD hcs.1).bind fun v hv => ?_
    refine (ih hcs.2).bind fun rest ⟨hregs, hrest⟩ => ?_
    exact gives_pure ⟨by simp [hregs], List.forall_mem_cons.mpr ⟨hv, hrest⟩⟩

theorem gives_create {w : World} {block : BlockId} {captures : List (Capture Value)} {params : List Reg}
    (hin : ∀ v ∈ captures.map (·.value), σ.Reads D v)
    (hat : K.At fr.func block 0 (givenRegs captures params) ∅)
    (hrange : σ.writes → ∀ r ∈ givenRegs captures params, fr.func.InRange r) :
    K.Gives (Machine.create fr w block captures params).2 K.Holds := by
  have h := gives_capture hfr hD hin
  unfold Machine.create
  cases hc : Machine.capture fr captures with
  | error c => rwa [hc] at h
  | ok cs =>
    rw [hc] at h
    obtain ⟨hregs, hcs⟩ := h
    have hgiven : givenRegs cs params = givenRegs captures params := by
      unfold givenRegs
      rw [hregs]
    refine .closure (fun f hf => ?_) hcs
    obtain rfl : fr.func = f := Option.some.inj (hfr.defines.symm.trans hf)
    simp only [hgiven]
    exact ⟨hat, hrange⟩

theorem gives_chooseArm (v : Value) (default : BlockId)
    {arms : List Arm} (harms : ∀ u ∈ arms.map (·.pattern), σ.Reads D u) :
    K.Gives (Machine.chooseArm fr v default arms) (· ∈ default :: arms.map (·.block)) := by
  induction arms with
  | nil => exact gives_pure (by simp)
  | cons a as ih =>
    rw [List.map_cons, List.forall_mem_cons] at harms
    rw [Machine.chooseArm]
    refine (gives_read hfr hD harms.1).bind fun u _ => ?_
    split
    · exact gives_pure (by simp)
    · refine (ih harms.2).mono fun b hb => ?_
      simp only [List.map_cons, List.mem_cons] at hb ⊢
      tauto

theorem gives_command {runner : Option Runner} (hrun : ∀ run ∈ runner, run.ClosureFree) (w : World)
    (name : String) {args : List Value} (hargs : ∀ v ∈ args, σ.Reads D v) :
    K.Gives (Machine.command runner fr w name args).2 K.Holds := by
  have h := gives_readAll hfr hD hargs
  unfold Machine.command
  cases runner with
  | none => trivial
  | some run =>
    cases hvs : fr.readAll args with
    | error c => rwa [hvs] at h
    | ok vs =>
      dsimp only
      split
      · trivial
      · exact holds_null
      · rename_i v hunset hv
        refine holds_of_isSet ?_ ?_
        · rintro c rfl
          exact hrun run rfl _ _ _ _ hv rfl
        · cases v <;> simp_all [Value.isSet]

theorem gives_leave {how : Terminator} (hv : σ.Reads D v) (hX : how = .yield → σ.reads → X ⊆ D) :
    K.Gives (Machine.leave fr how v) (K.Asks fr site D X) := by
  refine (gives_read hfr hD hv).bind fun x hx => ?_
  cases how with
  | ret | closureRet => exact ⟨hx, by simp⟩
  | yield => exact ⟨hx, fun _ hσ r hr => hD hσ r (hX rfl hσ hr)⟩
  | throw => exact hx

/-- An instruction at a point that is asserted asks for what the certificate expects. -/
theorem gives_perform {runner : Option Runner} (hrun : ∀ run ∈ runner, run.ClosureFree)
    (hcode : site.code.toList = fr.func.code site.block) (w : World) {x : Instr}
    (hx : x.Obeys σ (K.At fr.func) fr.func site.block site.ip D X) :
    K.Gives (Machine.perform runner p fr w x).2 (K.Asks fr site D X) := by
  obtain ⟨hin, hout, hleads⟩ := hx
  have hread : ∀ v ∈ x.ins, K.Gives (fr.read v) K.Holds := fun v hv => gives_read hfr hD (hin v hv)
  cases x with
  | binary op dest l r =>
    refine (hread l (by simp [Instr.ins])).bind fun a _ => ?_
    refine (hread r (by simp [Instr.ins])).bind fun b _ => ?_
    refine (Gives.of_computes (computes_apply op a b)).bind fun v hv => ?_
    exact gives_finish hfr hD ⟨hcode, (hout · rfl), hleads⟩ hv
  | regex dest l r negate =>
    refine (hread l (by simp [Instr.ins])).bind fun a _ => ?_
    refine (hread r (by simp [Instr.ins])).bind fun b _ => ?_
    refine (Gives.of_computes (computes_matchPattern a b negate)).bind fun v hv => ?_
    exact gives_finish hfr hD ⟨hcode, (hout · rfl), hleads⟩ hv
  | load dest v =>
    refine (hread v (by simp [Instr.ins])).bind fun x hx => ?_
    exact gives_finish hfr hD ⟨hcode, (hout · rfl), hleads⟩ hx
  | move dest src =>
    refine (hread (.reg src) (by simp [Instr.ins])).bind fun x hx => ?_
    exact gives_finish hfr hD ⟨hcode, (hout · rfl), hleads⟩ hx
  | circuit kind dest left right skip =>
    exact gives_circuit hfr hD (hin left (by simp [Instr.ins])) hcode (hout · rfl) hleads.1 hleads.2
  | call dest func args =>
    refine (gives_readAll hfr hD hin).bind fun vs hvs => ?_
    refine (gives_calleeNamed func hvs).bind fun c hc => ?_
    exact gives_pure ⟨hc, hcode, (hout · rfl), hleads⟩
  | closureCall dest r args =>
    refine (gives_callHeld hfr hD hin).bind fun c hc => ?_
    exact gives_pure ⟨hc, hcode, (hout · rfl), hleads⟩
  | closureCreate dest block captures params names =>
    obtain ⟨hat, hrange, hnext⟩ := hleads
    refine (gives_create hfr hD hin hat hrange).bind fun v hv => ?_
    exact gives_finish hfr hD ⟨hcode, (hout · rfl), hnext⟩ hv
  | command dest name args =>
    refine (gives_command hfr hD hrun w name hin).bind fun v hv => ?_
    exact gives_finish hfr hD ⟨hcode, (hout · rfl), hleads⟩ hv
  | dispatch dest scrutinee arms default =>
    obtain ⟨hblocks, hnext⟩ := hleads
    refine (hread scrutinee (by simp [Instr.ins])).bind fun v _ => ?_
    refine (gives_chooseArm hfr hD v default fun u hu => hin u ?_).bind fun b hb => ?_
    · exact List.mem_cons_of_mem scrutinee hu
    split
    · exact gives_finish hfr hD ⟨hcode, (hout · rfl), hnext⟩ holds_null
    · rename_i hne
      exact gives_pure ⟨∅, hblocks b hb hne, hcode, (hout · rfl), hnext⟩
  | guarded dest g =>
    obtain ⟨hbody, hhandles, hclean⟩ := hleads
    exact ⟨∅, hbody, hhandles, hclean.imp fun E hnext => ⟨hcode, (hout · rfl), hnext⟩⟩
  | leave how v => exact gives_leave hfr hD (hin v (by simp [Instr.ins])) hleads
  | stray what => exact hleads

end

end Certificate

end ScriptMachine
