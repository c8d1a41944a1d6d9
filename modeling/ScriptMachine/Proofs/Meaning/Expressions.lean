import ScriptMachine.Proofs.Lowering.CodeShape
import ScriptMachine.Proofs.Machine.Operators
import ScriptMachine.Proofs.Meaning.Simulation

/-!
# The meaning of expressions

The laws of the steps that lower one construct without branches, given the laws of the steps for its
parts: each does what the construct means (`Setting.Yields`).
-/

namespace ScriptMachine

/-- A value that is an operand of its own. -/
structure Value.IsConstant (v : Value) : Prop where
  notReg : v.isReg = false
  isSet : v.isSet = true

theorem Value.IsConstant.read {v : Value} (h : v.IsConstant) (fr : Frame) : fr.read v = .ok v := by
  cases v with
  | reg r => cases h.notReg
  | _ => rfl

theorem Lowering.isConstant_numberValue (text : String) : (numberValue text).IsConstant := by
  unfold numberValue
  cases h : numberValue? text with
  | none => exact ⟨rfl, rfl⟩
  | some v =>
    simp only [numberValue?, Option.orElse_eq_orElse, Option.orElse_eq_or, Option.or_eq_some_iff,
      Option.map_eq_some_iff] at h
    rcases h with ⟨_, _, rfl⟩ | ⟨-, ⟨_, _, rfl⟩ | ⟨-, _, _, rfl⟩⟩ <;> exact ⟨rfl, rfl⟩

namespace Setting

open Build Lowering

variable {S : Setting} {n : Nat} {b : BlockId} {P : Condition} {x y : Meaning}

/-- The law of a step that lowers a tree with the meaning `x`: its result is the register of the
value. -/
def Yields (S : Setting) (n : Nat) (b : BlockId) (m : Build (Option Reg)) (x : Meaning) : Prop :=
  S.Simulates n b m x.binds (fun _ _ => True) x.eval fun r v l fr => fr.Shows l (operand r) v

section
variable {α β : Type} {ev ev' : Eval β}

theorem Evaluates.congr {p q : Mark} {Q : β → Condition} (h : S.Evaluates n b p q P ev Q)
    (hev : ∀ fr : Frame, ∀ μ, fr.Mirrors p.regs p.names μ.env → P p.regs fr → ev μ = ev' μ) :
    S.Evaluates n b p q P ev' Q := fun fr k made μ hk hfr hm hp =>
  hev fr μ hm hp ▸ h fr k made μ hk hfr hm hp

theorem SimulatesAt.of_eq {m : Build α} (m' : Build α) {bs : List String} {Q : α → β → Condition} {s : Builder}
    (h : S.SimulatesAt n b m' bs P ev Q s) (heq : m s = m' s) : S.SimulatesAt n b m bs P ev Q s :=
  ⟨heq ▸ h.stands, heq ▸ h.rebinds, heq ▸ h.evaluates⟩

end

/-! ## Leaves -/

theorem yields_none : S.Yields n b (pure none) (.const .null) :=
  simulates_pure fun _ _ _ => Frame.shows_null

theorem acts_load {v : Value} (hv : v.IsConstant) : S.Acts P (.load · v) (pure v) where
  performs l fr made μ dest _ := by
    simp only [Machine.perform, hv.read]
    rfl
  env _ := rfl
  isSet _ _ μ w _ h := by
    cases h
    exact hv.isSet

theorem yields_constant {v : Value} (hv : v.IsConstant) : S.Yields n b (constant b v) (.const v) :=
  simulates_produce (acts_load hv) fun _ => rfl

theorem yields_number (pos : Position) (text : String) :
    S.Yields n b (number pos text >>= constant b) (.const (numberValue text)) := by
  refine Simulates.after_quiet (a := numberValue text) (fun s => ?_)
    (yields_constant (isConstant_numberValue text))
  unfold number numberValue
  cases numberValue? text with
  | none => exact ⟨_, rfl⟩
  | some v => exact ⟨s.diags, rfl⟩

theorem lookup_outside {s : Builder} (h : s.enclosing = []) (name : String) :
    lookup name s = (s.names.get? name, s) := by
  obtain ⟨p, f, ns, es, ds⟩ := s
  obtain rfl : es = [] := h
  rfl

theorem yields_word (name : String) : S.Yields n b (word b name) { eval := Eval.word name } := by
  intro s hs ha
  have hlook := lookup_outside hs.outside name
  cases hname : s.names.get? name with
  | some r =>
    rw [hname] at hlook
    have happ : word b name s = (pure (some r) : Build (Option Reg)) s := by
      rw [word, bind_apply, hlook]
    refine SimulatesAt.of_eq (pure (some r)) ⟨hs, .refl _, ?_⟩ happ
    intro fr k made μ _ _ hm _
    obtain ⟨v, hv, hshow⟩ := hm.of_some hname
    have hev : (Meaning.mk (Eval.word name) []).eval μ = (.ok v, μ) := by simp [Eval.word, hv]
    rw [hev]
    exact .here ⟨fr, rfl, .refl _ _ fr, hm, hshow⟩
  | none =>
    rw [hname] at hlook
    have happ : word b name s = constant b (.string name) s := by
      rw [word, bind_apply, hlook]
    have h : S.SimulatesAt n b _ _ _ _ _ s :=
      yields_constant (v := .string name) ⟨rfl, rfl⟩ s hs (happ ▸ ha)
    refine SimulatesAt.of_eq _ ⟨h.stands, h.rebinds, h.evaluates.congr fun fr μ hm _ => ?_⟩ happ
    simp only [Eval.word, hm.of_none hname, Option.getD_none]
    rfl

/-! ## Statements and arguments -/

section
variable {α β : Type} {bs : List String} {ev : Eval β}

/-- Where a lowering of this kind works, the block has not ended. -/
theorem Simulates.after_terminated {f : Bool → Build α} {Q : α → β → Condition}
    (hf : S.Simulates n b (f false) bs P ev Q) :
    S.Simulates n b (terminated b >>= f) bs P ev Q := by
  intro s hs ha
  have happ : (terminated b >>= f) s = f false s := by
    rw [bind_apply, terminated_apply, hs.live]
  exact SimulatesAt.of_eq _ (hf s hs (happ ▸ ha)) happ

end

variable {m : Build (Option Reg)}

theorem yields_stmts {last : Option Reg} {w : Value} {bs : List String}
    {rest : Option Reg → Build (Option Reg)} {evs : List (Eval Value)}
    (hadd : Adds {b} m ∧ ∀ r, Adds {b} (rest r)) (hm : S.Yields n b m x)
    (hrest : ∀ r v, S.Simulates n b (rest r) bs (fun l fr => fr.Shows l (operand r) v)
      (Eval.seq v evs) fun r v l fr => fr.Shows l (operand r) v) :
    S.Simulates n b (m >>= fun r => terminated b >>= fun t => if t then pure r else rest r)
      (x.binds ++ bs) (fun l fr => fr.Shows l (operand last) w) (Eval.seq w (x.eval :: evs))
      fun r v l fr => fr.Shows l (operand r) v := by
  refine (hm.pre fun _ _ _ => trivial).bind (by grind) (lasting_shows _ _) fun r v => ?_
  exact Simulates.after_terminated ((hrest r v).pre fun l fr h => h.2)

/-- The law of a step that lowers arguments with the given meanings. -/
def YieldsAll (S : Setting) (n : Nat) (b : BlockId) (m : Build (List Value)) (xs : List Meaning) :
    Prop :=
  S.Simulates n b m (xs.flatMap (·.binds)) (fun _ _ => True) (Eval.all (xs.map (·.eval)))
    fun os vs l fr => List.Forall₂ (fr.Shows l) os vs

theorem yieldsAll_nil : S.YieldsAll n b (pure []) [] :=
  simulates_pure fun _ _ _ => .nil

theorem yieldsAll_cons {rest : Build (List Value)} {xs : List Meaning}
    (hadd : Adds {b} m ∧ Adds {b} rest) (hm : S.Yields n b m x) (hrest : S.YieldsAll n b rest xs) :
    S.YieldsAll n b (m >>= fun r => rest >>= fun vs => pure (operand r :: vs)) (x :: xs) := by
  have hcons : ∀ r v, S.Simulates n b (rest >>= fun vs => pure (operand r :: vs))
      (xs.flatMap (·.binds) ++ []) (fun l fr => True ∧ fr.Shows l (operand r) v)
      (Eval.all (xs.map (·.eval)) >>= fun vs => pure (v :: vs))
      fun os vs l fr => List.Forall₂ (fr.Shows l) os vs := by
    intro r v
    refine Simulates.bind (by grind) (Simulates.pre hrest fun _ _ _ => trivial)
      (lasting_true.and (lasting_shows _ _)) fun os vs => ?_
    exact simulates_pure fun l fr h => .cons h.1.2 h.2
  have h := Simulates.bind (by grind) hm lasting_true hcons
  simpa [YieldsAll, Eval.all] using h

/-! ## Assignments -/

theorem simulates_orNull (r : Option Reg) (v : Value) :
    S.Simulates n b (orNull b r) [] (fun l fr => fr.Shows l (operand r) v) (pure v)
      fun q v l fr => fr.Shows l (.reg q) v := by
  cases r with
  | some r => exact simulates_pure fun _ _ h => h
  | none =>
    intro s hs ha
    have h : S.SimulatesAt n b _ _ _ _ _ s :=
      yields_constant (v := .null) ⟨rfl, rfl⟩ s hs ha
    refine ⟨h.stands, h.rebinds, (h.evaluates.pre fun _ _ => trivial).congr fun fr μ _ hp => ?_⟩
    obtain ⟨rfl, -⟩ := hp
    rfl

theorem simulates_bind_name (name : String) (r : Reg) (v : Value) :
    S.Simulates n b (Build.bind name r) [name] (fun l fr => fr.Shows l (.reg r) v)
      (Eval.assign name v) fun _ _ l fr => fr.Shows l (.reg r) v := by
  intro s hs _
  refine ⟨{ hs with proper := hs.proper.bind name r }, ⟨fun other h => ?_, fun other h => ?_⟩, ?_⟩
  · rw [List.mem_singleton] at h
    simp [Names.get?_bind, h]
  · rw [List.mem_singleton] at h
    simp [Names.get?_bind, h]
  · intro fr k made μ _ _ hm hp
    refine .here ⟨fr, rfl, .refl _ _ fr, fun other => ?_, hp⟩
    show Option.Rel _ ((s.names.bind name r).get? other) (Function.update μ.env name (some v) other)
    rw [Names.get?_bind]
    by_cases h : other = name
    · subst h
      rw [if_pos rfl, Function.update_self]
      exact .some hp
    · rw [if_neg h, Function.update_of_ne h]
      exact hm other

theorem yields_assign (am : Adds {b} m) (name : String) (hm : S.Yields n b m x) :
    S.Yields n b (assign b name m) (.assign name x) := by
  have hname : ∀ q v, S.Simulates n b (Build.bind name q >>= fun _ => pure (some q)) ([name] ++ [])
      (fun l fr => fr.Shows l (.reg q) v) (Eval.assign name v >>= fun _ => pure v)
      fun r v l fr => fr.Shows l (operand r) v := fun q v =>
    (simulates_bind_name name q v).bind (by grind) (lasting_shows _ _) fun _ _ =>
      simulates_pure fun _ _ h => h.1
  have hset : ∀ r v, S.Simulates n b
      (orNull b r >>= fun q => Build.bind name q >>= fun _ => pure (some q)) ([] ++ ([name] ++ []))
      (fun l fr => fr.Shows l (operand r) v)
      (pure v >>= fun v => Eval.assign name v >>= fun _ => pure v)
      fun r v l fr => fr.Shows l (operand r) v := fun r v =>
    (simulates_orNull r v).bind (by grind) (lasting_shows _ _) fun q v =>
      (hname q v).pre fun _ _ h => h.2
  exact Simulates.bind (by grind) hm lasting_true fun r v => (hset r v).pre fun _ _ h => h.2

/-! ## Commands -/

theorem readAll_of_shows {fr : Frame} {l : Int} {os vs : List Value}
    (h : List.Forall₂ (fr.Shows l) os vs) : fr.readAll os = .ok vs := by
  induction h with
  | nil => rfl
  | cons hs _ ih =>
    simp only [Frame.readAll, hs.read, ih]
    rfl

theorem acts_command (name : String) (os vs : List Value)
    (hP : ∀ l fr, P l fr → List.Forall₂ (fr.Shows l) os vs) :
    S.Acts P (.command · name os) (Eval.issue S.cfg.runner name vs) where
  performs l fr made μ dest hp := by
    have hread := readAll_of_shows (hP l fr hp)
    simp only [Machine.perform, Machine.command, Eval.issue]
    cases S.cfg.runner with
    | none => rfl
    | some run =>
      simp only [hread]
      rfl
  env μ := by
    unfold Eval.issue
    cases S.cfg.runner <;> rfl
  isSet _ _ μ v _ h := by
    unfold Eval.issue at h
    cases hr : S.cfg.runner with
    | none =>
      rw [hr] at h
      cases h
    | some run =>
      rw [hr] at h
      simp only at h
      split at h
      · cases h
      · cases h
        rfl
      · rename_i hne _
        cases h
        cases v with
        | unset => exact absurd rfl hne
        | _ => rfl

theorem yields_issue {m : Build (List Value)} (am : Adds {b} m) (name : String) {xs : List Meaning}
    (hm : S.YieldsAll n b m xs) :
    S.Yields n b (issue b name [] m) (.issue S.cfg.runner name xs) := by
  have h := Simulates.bind (by grind) hm lasting_true fun os vs =>
    simulates_produce (acts_command name os vs fun _ _ h => h.2) fun _ => rfl
  rw [List.append_nil] at h
  exact h

/-! ## Operators -/

/-- What an instruction that reads two operands and computes does. -/
theorem acts_operation {instr : Reg → Instr} {f : Value → Value → Except Cause Value}
    {o o' v v' : Value}
    (hperf : ∀ (fr : Frame) w dest, Machine.perform S.cfg.runner S.prog fr w (instr dest) =
      (w, do
        let a ← fr.read o
        let c ← fr.read o'
        let z ← f a c
        Machine.finish fr dest z))
    (hf : ∀ a c, Computes (f a c))
    (hP : ∀ l fr, P l fr → fr.Shows l o v ∧ fr.Shows l o' v') :
    S.Acts P instr (liftM (f v v')) where
  performs l fr made μ dest hp := by
    obtain ⟨h, h'⟩ := hP l fr hp
    rw [hperf, h.read, h'.read]
    rfl
  env _ := rfl
  isSet _ _ μ w _ h := by
    have hc := hf v v'
    change f v v' = .ok w at h
    rw [h] at hc
    exact Value.isSet_of_isComputed hc

theorem operation?_of_operator? {op : String} {instr : Reg → Value → Value → Instr}
    (h : operator? op = some instr) :
    ∃ f, Eval.operation? op = some f ∧ (∀ a c, Computes (f a c)) ∧
      ∀ (S : Setting) (fr : Frame) w dest o o',
        Machine.perform S.cfg.runner S.prog fr w (instr dest o o') = (w, do
          let a ← fr.read o
          let c ← fr.read o'
          let z ← f a c
          Machine.finish fr dest z) := by
  unfold operator? at h
  split at h
  · cases h
    exact ⟨_, rfl, fun a c => computes_matchPattern a c _, fun _ _ _ _ _ _ => rfl⟩
  · cases h
    exact ⟨_, rfl, fun a c => computes_matchPattern a c _, fun _ _ _ _ _ _ => rfl⟩
  · rename_i h₁ h₂
    obtain ⟨o, ho, rfl⟩ := Option.map_eq_some_iff.mp h
    refine ⟨o.apply, ?_, computes_apply o, fun _ _ _ _ _ _ => rfl⟩
    unfold Eval.operation?
    split
    · exact absurd rfl h₁
    · exact absurd rfl h₂
    · rw [ho]
      rfl

theorem operation?_of_operator?_none {op : String} (h : operator? op = none) :
    Eval.operation? op = none := by
  unfold operator? at h
  unfold Eval.operation?
  split at h <;> simp_all

/-! ## Short circuits -/

section
variable {kind : Circuit} {fr fr' : Frame} {wd : World} {dest : Reg} {o o' w : Value} {skip : Int64}

/-- What a short circuit does, once its left operand is read. -/
theorem perform_circuit (ho : fr.read o = .ok w) :
    Machine.perform S.cfg.runner S.prog fr wd (.circuit kind dest o o' skip) =
      (wd, if w.truthy = kind.decides then (fr.write dest (.bool kind.decides)).map (.next · skip)
        else if o'.isReg then .ok (.next fr 0) else Machine.finish fr dest .null) := by
  simp only [Machine.perform, Machine.circuit, ho]
  rfl

theorem perform_circuit_decided (ho : fr.read o = .ok w) (hdec : w.truthy = kind.decides)
    (hwrite : fr.write dest (.bool kind.decides) = .ok fr') :
    Machine.perform S.cfg.runner S.prog fr wd (.circuit kind dest o o' skip) =
      (wd, .ok (.next fr' skip)) := by
  rw [perform_circuit ho, if_pos hdec, hwrite]
  rfl

theorem perform_circuit_open (ho : fr.read o = .ok w) (hdec : w.truthy ≠ kind.decides)
    (ho' : o'.isReg = true) :
    Machine.perform S.cfg.runner S.prog fr wd (.circuit kind dest o o' skip) =
      (wd, .ok (.next fr (Int64.ofNat 0))) := by
  rw [perform_circuit ho, if_neg hdec, if_pos ho']
  rfl

theorem perform_circuit_null (ho : fr.read o = .ok w) (hdec : w.truthy ≠ kind.decides)
    (ho' : o'.isReg = false) (hwrite : fr.write dest .null = .ok fr') :
    Machine.perform S.cfg.runner S.prog fr wd (.circuit kind dest o o' skip) =
      (wd, .ok (.next fr' (Int64.ofNat 0))) := by
  rw [perform_circuit ho, if_neg hdec, if_neg (by simp [ho']), Machine.finish, hwrite]
  rfl

theorem perform_move {q : Reg} (hq : fr.read (.reg q) = .ok w) (hwrite : fr.write dest w = .ok fr') :
    Machine.perform S.cfg.runner S.prog fr wd (.move dest q) =
      (wd, .ok (.next fr' (Int64.ofNat 0))) := by
  simp only [Machine.perform, hq]
  show (wd, Machine.finish fr dest w) = _
  rw [Machine.finish, hwrite]
  rfl

end

section
variable {kind : Circuit} {left r : Option Reg} {w : Value} {p : Mark} {i : Nat} {hi : Int}
  {names : Names}

/-- The code of a short circuit, in terms of the code of its right operand, which ends in front of the
index `i`. -/
theorem evaluates_circuit
    (hx : (S.func.code b)[p.index]? = some (.circuit kind ⟨p.regs⟩ (operand left) (operand r)
      (Int64.ofNat (i + (landing ⟨p.regs⟩ r).length - (p.index + 1)))))
    (hdest : S.func.InRange ⟨p.regs⟩) (hlt : p.index < i) (hregs : p.regs < hi)
    (hright : S.Evaluates n b ⟨p.index + 1, p.regs + 1, p.names⟩ ⟨i, hi, names⟩ (fun _ _ => True)
      y.eval fun v l fr => fr.Shows l (operand r) v)
    (hmove : ∀ q, r = some q → (S.func.code b)[i]? = some (.move ⟨p.regs⟩ q)) :
    S.Evaluates n b p ⟨i + (landing ⟨p.regs⟩ r).length, hi, p.names⟩
      (fun l fr => fr.Shows l (operand left) w) (Eval.circuit kind w y.eval)
      fun v l fr => fr.Shows l (.reg ⟨p.regs⟩) v := by
  intro fr k made μ hk hfr hm hp
  have hlen := S.lt_of_getElem? hx
  have hle : p.regs + 1 ≤ hi := hregs
  have hlo : p.regs ≤ p.regs + 1 := by omega
  by_cases hdec : w.truthy = kind.decides
  · -- the left operand decides
    obtain ⟨fr', hwrite, hkeep, hshow⟩ := hfr.write hdest (v := .bool kind.decides) rfl
    have hindex : p.index + (i + (landing ⟨p.regs⟩ r).length - (p.index + 1)) + 1 =
        i + (landing ⟨p.regs⟩ r).length := by omega
    have hev : Eval.circuit kind w y.eval μ = (.ok (.bool kind.decides), μ) := by
      rw [Eval.circuit, if_pos hdec]
      rfl
    rw [hev]
    have hkeep' : fr.Keeps p.regs hi fr' := hkeep.mono (le_refl _) hle
    refine .step (Machine.step_next hx hlen (perform_circuit_decided hp.read hdec hwrite))
      (.here ⟨fr', by rw [hindex], hkeep', ?_, ?_⟩)
    · exact hm.keeps hkeep' (le_refl _) (le_of_lt hregs)
    · exact hshow.mono hle
  · have hev : Eval.circuit kind w y.eval = Eval.keeping [] y.eval := by
      rw [Eval.circuit, if_neg hdec]
    rw [hev]
    cases r with
    | some q =>
      -- the right operand is evaluated, and its value moved
      refine .step (Machine.step_next hx hlen (perform_circuit_open hp.read hdec rfl)) ?_
      refine (hright fr k made μ hk hfr (hm.mono hlo) trivial).trans fun t ht => ?_
      rcases hy : y.eval μ with ⟨c | v, ν⟩
      · rw [hy] at ht
        rw [Eval.keeping_of_error hy]
        exact .here ht
      · rw [hy] at ht
        rw [Eval.keeping_of_ok hy]
        obtain ⟨fr₁, rfl, hkeep₁, -, hshow₁⟩ := ht
        obtain ⟨fr₂, hwrite, hkeep₂, hshow₂⟩ := (hfr.keeps hkeep₁).write hdest hshow₁.isSet
        have hkeep : fr.Keeps p.regs hi fr₂ :=
          (hkeep₁.mono hlo (le_refl _)).comp (hkeep₂.mono (le_refl _) hle)
        have hx' := hmove q rfl
        refine .step (Machine.step_next hx' (S.lt_of_getElem? hx') (perform_move hshow₁.read hwrite))
          (.here ⟨fr₂, rfl, hkeep, ?_, hshow₂.mono hle⟩)
        simpa using hm.keeps hkeep (le_refl _) (le_of_lt hregs)
    | none =>
      -- the result is null before the right operand, which has no value, is evaluated
      obtain ⟨fr₁, hwrite, hkeep₁, hshow₁⟩ := hfr.write hdest (v := .null) rfl
      refine .step (Machine.step_next hx hlen (perform_circuit_null hp.read hdec rfl hwrite)) ?_
      refine (hright fr₁ k made μ hk (hfr.keeps hkeep₁) (hm.keeps hkeep₁ (le_refl _) hlo)
        trivial).trans fun t ht => ?_
      rcases hy : y.eval μ with ⟨c | v, ν⟩
      · rw [hy] at ht
        rw [Eval.keeping_of_error hy]
        exact .here ht
      · rw [hy] at ht
        rw [Eval.keeping_of_ok hy]
        obtain ⟨fr₂, rfl, hkeep₂, -, rfl, -⟩ := ht
        have hkeep : fr.Keeps p.regs hi fr₂ := hkeep₁.trans hkeep₂ hlo hle
        refine .here ⟨fr₂, rfl, hkeep, ?_, hshow₁.keeps hkeep₂ (le_refl _) hle⟩
        simpa using hm.keeps hkeep (le_refl _) (le_of_lt hregs)

theorem yields_circuit {m : Build (Option Reg)} (am : Adds {b} m) (hm : S.Yields n b m y) :
    S.Simulates n b (circuit b kind left m) [] (fun l fr => fr.Shows l (operand left) w)
      (Eval.circuit kind w y.eval) fun r v l fr => fr.Shows l (operand r) v := by
  intro s hs ha
  have hstart : (circuitStart b kind left s).func.code b = _ := circuitStart_code hs.has
  have hregs : (circuitStart b kind left s).func.numRegs = s.func.numRegs + 1 := by
    simp [circuitStart]
  have hstands : (circuitStart b kind left s).Stands b := by
    have hs₁ : Builder.Stands { s with func := s.func.newReg.1 } b :=
      { hs with numRegs := by have := hs.numRegs; simp only [Func.newReg_numRegs]; omega }
    exact hs₁.emit rfl
  have hnames : (circuitStart b kind left s).names = s.names := rfl
  have hend : (circuitEnd b kind left m s).func.code b = _ := circuitEnd_code am hs.has
  obtain ⟨hunum, -, hunames, huenc, -⟩ := @circuitEnd_fields b kind left m s
  have hgrow := grows_landing (Set.mem_singleton b) kind left m s
  have hright := hm _ hstands (agrees_circuit am hs.has ha)
  have hgrow₁ := (am (circuitStart b kind left s)).func
  have happ := circuit_apply b kind left m s
  rw [happ] at ha
  -- from here on only these facts matter, not how the states came about
  generalize circuitEnd b kind left m s = u at *
  generalize circuitStart b kind left s = s₁ at *
  have hle : (s₁.func.code b).length ≤ ((m s₁).2.func.code b).length := hgrow₁.length_le b
  have hlen : (s₁.func.code b).length = (s.func.code b).length + 1 := by simp [hstart]
  have hnum := hgrow₁.numRegs
  have hcode : ∀ i x, (s.func.code b).length < i → (u.func.code b)[i]? = some x →
      (S.func.code b)[i]? = some x := by
    intro i x hi hx
    refine ha.code b i x (le_of_lt hi) ?_
    rwa [getElem?_replace_ne (Nat.ne_of_gt hi)]
  have hmove : ∀ q, (m s₁).1 = some q → (S.func.code b)[((m s₁).2.func.code b).length]? =
      some (.move ⟨s.func.numRegs⟩ q) := by
    intro q hq
    refine hcode _ _ (by omega) ?_
    rw [hend, hq]
    simp [landing]
  refine ⟨?_, ?_, ?_⟩ <;> rw [happ]
  · have ht := hright.stands
    refine ⟨by simpa using hgrow.func.has ht.has, ?_, huenc.trans ht.outside, ?_, ?_⟩
    · simp only [Func.replace_code_self]
      refine endsBlock_set rfl ?_
      rw [hend]
      rcases (m s₁).1 with _ | r
      · simpa [landing] using ht.live
      · exact endsBlock_append _ _
    · simpa [hunum] using ht.numRegs
    · simpa [hunames] using hs.proper
  · simpa [hunames] using Names.Rebinds.refl s.names
  · have hx := ha.code b (s.func.code b).length _ (le_refl _)
      (by rw [Func.replace_code_self, List.getElem?_set_self (by rw [hend, List.length_append]; omega)])
    have hdest : S.func.InRange ⟨s.func.numRegs⟩ := by
      refine ha.inRange ⟨hs.numRegs, ?_⟩
      simp only [Func.replace_numRegs]
      omega
    have hy := hright.evaluates
    simp only [Builder.mark, hlen, hregs, hnames] at hy
    rw [hend, List.length_append] at hx
    have h := evaluates_circuit (p := s.mark b) (w := w) hx hdest (by simp [Builder.mark]; omega)
      (by simp [Builder.mark]; omega) hy hmove
    simpa [Builder.mark, Func.replace_code_self, operand, hend, hunum, hunames] using h

end

theorem yields_degrade (pos : Position) (c : Complaint) :
    S.Yields n b (degrade b pos c) (.const .null) :=
  Simulates.after_quiet (a := ()) (fun _ => ⟨_, rfl⟩) (yields_constant (v := .null) ⟨rfl, rfl⟩)

theorem yields_binary {m m' : Build (Option Reg)} (hadd : Adds {b} m ∧ Adds {b} m') (pos : Position)
    (op : String) (hm : S.Yields n b m x) (hm' : S.Yields n b m' y) :
    S.Yields n b (binary b pos op m m') (.binary op x y) := by
  unfold Yields Meaning.binary Eval.binary binary
  cases hc : circuit? op with
  | some kind =>
    have h := Simulates.bind (by grind) (f := (circuit b kind · m')) hm lasting_true fun _ _ =>
      (yields_circuit hadd.2 hm').pre fun _ _ h => h.2
    simpa using h
  | none =>
    cases ho : operator? op with
    | none =>
      have h := Simulates.bind (by grind) hm lasting_true fun _ _ =>
        (yields_degrade pos (.unsupportedOperator op)).pre fun _ _ _ => trivial
      simp only [operation?_of_operator?_none ho]
      exact h
    | some instr =>
      obtain ⟨f, hf, hcomp, hperf⟩ := operation?_of_operator? ho
      have h₂ : ∀ l v, S.Simulates n b (m' >>= fun r => produce b (instr · (operand l) (operand r)))
          (y.binds ++ []) (fun k fr => fr.Shows k (operand l) v) (y.eval >>= fun w => liftM (f v w))
          fun r v k fr => fr.Shows k (operand r) v := fun l v =>
        (Simulates.pre hm' fun _ _ _ => trivial).bind (by grind) (lasting_shows _ _) fun r w =>
          simulates_produce (acts_operation (hperf S · · · _ _) hcomp fun _ _ h => h)
            fun dest => Instr.Plain.not_terminator (operator?_spec ho dest _ _).1
      have h := Simulates.bind (by grind) hm lasting_true fun l v => (h₂ l v).pre fun _ _ h => h.2
      simpa [hf] using h

end Setting

end ScriptMachine
