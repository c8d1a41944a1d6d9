import ScriptMachine.Proofs.Lowering.Orders

/-!
# The order of operators, calls and closures

The laws of the steps that lower one construct, given the laws of the steps for its parts. `Settles` is
the law of a step that lowers a part: its result, if any, is in a settled register.

The register of a short circuit is taken first and written last, so it counts as hidden while its right
operand is lowered. A closure body runs in a frame of its own, in which its captures are settled from
the start.
-/

namespace ScriptMachine

namespace Build

/-- The law of a step that lowers a tree. -/
def Settles (g : Func) (C H : Set Reg) (b : BlockId) (n : Int) (m : Build (Option Reg)) : Prop :=
  Orders g C H b n m fun r n' => SettledValue C H n' (operand r)

/-- The law of a step that lowers arguments. -/
def SettlesAll (g : Func) (C H : Set Reg) (b : BlockId) (n : Int) (m : Build (List Value)) : Prop :=
  Orders g C H b n m fun vs n' => ∀ v ∈ vs, SettledValue C H n' v

end Build

namespace Lowering

open Build

variable {g : Func} {C H : Set Reg} {b : BlockId} {n : Int} {value : Build (Option Reg)}

theorem settledValue_none : SettledValue C H n (operand none) := settledValue_of_not_reg rfl

/-! ## Leaves -/

theorem settles_pure_none : Settles g C H b n (pure none) :=
  orders_pure fun _ _ => settledValue_none

theorem settles_constant {v : Value} (hv : Ready ∅ v) : Settles g C H b n (constant b v) := by
  refine (orders_load hv.settledValue).bind (by grind) fun r n' _ hr => ?_
  exact orders_pure fun _ hn => settledValue_reg.mpr (hr.mono hn)

theorem settles_number (pos : Position) (text : String) :
    Settles g C H b n (number pos text >>= constant b) := by
  have hnum : Orders g C H b n (number pos text) fun v _ => Ready ∅ v := by
    unfold number
    split
    · rename_i v hv
      exact orders_pure fun _ _ => ready_of_numberValue? hv
    · exact (orders_complain pos _).bind (by grind) fun _ _ _ _ =>
        orders_pure fun _ _ => trivial
  exact hnum.bind (by grind) fun v _ _ hv => settles_constant hv

theorem settles_degrade (pos : Position) (c : Complaint) : Settles g C H b n (degrade b pos c) :=
  (orders_complain pos c).bind (by grind) fun _ _ _ _ => settles_constant trivial

theorem settles_word (name : String) : Settles g C H b n (word b name) := by
  refine (orders_lookup name).bind (by grind) fun r n' _ hr => ?_
  cases r with
  | some r => exact orders_pure fun _ hn => settledValue_reg.mpr ((hr r rfl).mono hn)
  | none => exact settles_constant trivial

/-! ## The ends of blocks -/

theorem orders_leave {v : Value} (hv : SettledValue C H n v) :
    Orders g C H b n (leave b v) fun _ _ => True :=
  orders_inClosure.bind (by grind) fun _ _ hn _ => orders_emit_leave _ (hv.mono hn)

theorem settles_exit (exit : Value → Build Unit) (ax : ∀ v, Adds {b} (exit v))
    (hx : ∀ {n v}, SettledValue C H n v → Orders g C H b n (exit v) fun _ _ => True)
    (av : Adds {b} value) (hv : Settles g C H b n value) :
    Settles g C H b n (value >>= fun r => exit (operand r) >>= fun _ => pure none) := by
  refine Orders.bind (by grind) hv fun r n' _ hr => ?_
  exact (hx hr).bind (by grind) fun _ _ _ _ => settles_pure_none

/-- A terminator that is added unless the block has ended. -/
theorem orders_seal {m : Build Unit} (am : Adds {b} m) (hm : Orders g C H b n m fun _ _ => True) :
    Orders g C H b n (terminated b >>= fun t => if t then pure () else m) fun _ _ => True := by
  refine orders_terminated.bind (by grind) fun t n' hn _ => ?_
  split
  · exact orders_pure fun _ _ => trivial
  · exact hm.mono hn

theorem orders_sealBody {last : Option Reg} (hl : SettledValue C H n (operand last)) :
    Orders g C H b n (sealBody b last) fun _ _ => True :=
  orders_seal (by grind) (orders_leave hl)

theorem orders_sealNested {last : Option Reg} (hl : SettledValue C H n (operand last)) :
    Orders g C H b n (sealNested b last) fun _ _ => True :=
  orders_seal (by grind) (orders_emit_leave .yield hl)

/-! ## Commands and calls -/

section
variable {args : Build (List Value)}

theorem settles_issue (aa : Adds {b} args) (name : String) (words : List String)
    (ha : SettlesAll g C H b n args) : Settles g C H b n (issue b name words args) := by
  refine Orders.bind (by grind) ha fun vs n' _ hvs => ?_
  refine orders_produce (x := (.command · name (words.map Value.string ++ vs))) (fun _ => trivial)
    (fun _ => rfl) fun _ v hv => ?_
  rcases List.mem_append.mp (show v ∈ words.map Value.string ++ vs from hv) with hv | hv
  · obtain ⟨w, -, rfl⟩ := List.mem_map.mp hv
    exact settledValue_of_not_reg rfl
  · exact hvs v hv

theorem settles_command (aa : Adds {b} args) (pos : Position) (name line : String)
    (ha : SettlesAll g C H b n args) : Settles g C H b n (command b pos name line args) := by
  unfold command
  split
  · exact settles_issue aa name [] ha
  · split
    · exact settles_degrade pos _
    · exact settles_degrade pos _
    · split <;> exact settles_issue aa _ _ ha

theorem settles_callHeld {callee : Reg} (aa : Adds {b} args) (hc : Settled C H n callee)
    (ha : SettlesAll g C H b n args) : Settles g C H b n (callHeld b callee args) := by
  refine Orders.bind (by grind) ha fun vs n' hn hvs => ?_
  refine orders_produce (x := (.closureCall · callee vs)) (fun _ => trivial) (fun _ => rfl)
    fun _ v hv => ?_
  rcases List.mem_cons.mp hv with rfl | hv
  · exact settledValue_reg.mpr (hc.mono hn)
  · exact hvs v hv

theorem settles_callNamed (aa : Adds {b} args) (name : String) (ha : SettlesAll g C H b n args) :
    Settles g C H b n (callNamed b name args) := by
  refine Orders.bind (by grind) ha fun vs n' _ hvs => ?_
  exact orders_produce (x := (.call · name vs)) (fun _ => trivial) (fun _ => rfl) fun _ => hvs

theorem settles_call {value : Build (Option Reg)} (hadd : Adds {b} value ∧ Adds {b} args)
    (pos : Position) (callee : Node) (hv : Settles g C H b n value)
    (ha : ∀ n, SettlesAll g C H b n args) : Settles g C H b n (call b pos callee value args) := by
  unfold call
  split
  · refine (orders_lookup _).bind (by grind) fun r n' _ hr => ?_
    cases r with
    | some r => exact settles_callHeld hadd.2 (hr r rfl) (ha n')
    | none => exact settles_callNamed hadd.2 _ (ha n')
  · refine Orders.bind (by grind) hv fun r n' _ hr => ?_
    cases r with
    | some r => exact settles_callHeld hadd.2 (settledValue_reg.mp hr) (ha n')
    | none => exact settles_degrade pos _

end

/-! ## Assignments and operators -/

theorem settles_assign (av : Adds {b} value) (name : String) (hv : Settles g C H b n value) :
    Settles g C H b n (assign b name value) := by
  refine Orders.bind (by grind) hv fun r n₁ _ hr => ?_
  refine (orders_orNull hr).bind (by grind) fun q n₂ _ hq => ?_
  refine (orders_bind_name name hq).bind (by grind) fun _ n₃ hn _ => ?_
  exact orders_pure fun _ hn' => settledValue_reg.mpr (hq.mono (le_trans hn hn'))

section
variable {kind : Circuit} {left : Option Reg} {right : Build (Option Reg)} {s : Builder}

/-- While the right operand of a short circuit is lowered, the result is hidden. -/
theorem kept_circuitStart (hs : Kept C H s) :
    Kept C (insert ⟨s.func.numRegs⟩ H) (circuitStart b kind left s) := by
  have hnum : (circuitStart b kind left s).func.numRegs = s.func.numRegs + 1 := by
    simp [circuitStart]
  refine ⟨?_, ?_, ?_, ?_⟩
  · rw [hnum]
    exact le_trans hs.numRegs (Int.le_of_lt (Int.lt_succ _))
  · rw [hnum]
    exact hs.scope.mono (Int.le_of_lt (Int.lt_succ _))
  · rw [hnum]
    rintro r (rfl | hr)
    · exact Int.lt_succ _
    · exact lt_of_lt_of_le (hs.hidden r hr) (Int.le_of_lt (Int.lt_succ _))
  · rw [hnum]
    intro p hp
    rcases hs.names p hp with hC | ⟨hlt, hH⟩
    · exact .inl hC
    · refine .inr ⟨lt_trans hlt (Int.lt_succ _), ?_⟩
      rintro (heq | hmem)
      · rw [heq] at hlt
        exact lt_irrefl _ hlt
      · exact hH hmem

/-- What may still happen when the right operand is reached lies within what may happen in front of the
short circuit. -/
theorem outlook_circuitStart_le :
    outlook C (insert ⟨s.func.numRegs⟩ H) (circuitStart b kind left s) ≤ outlook C H s := by
  refine ⟨by simp [outlook, horizon, circuitStart], fun r hr hset => hr ?_⟩
  rcases hset with hC | ⟨hlt, hH⟩
  · exact .inl hC
  · refine .inr ⟨lt_trans hlt (by simp only [circuitStart, Func.append_numRegs, Func.newReg_numRegs]; omega), ?_⟩
    rintro (heq | hmem)
    · rw [heq] at hlt
      exact lt_irrefl _ hlt
    · exact hH hmem

/-- Behind a short circuit its result is hidden no more. -/
theorem outlook_le_insert {u t : Builder} (dest : Reg)
    (hsize : u.func.blocks.size = t.func.blocks.size) (hnum : u.func.numRegs = t.func.numRegs) :
    outlook C H u ≤ outlook C (insert dest H) t := by
  refine ⟨by simp [outlook, horizon, hsize], fun r hr hset => hr ?_⟩
  rw [hnum]
  exact hset.imp id fun h => ⟨h.1, fun hmem => h.2 (Set.mem_insert_of_mem _ hmem)⟩

/-- The code of a short circuit can be followed if its right operand can, in terms of the code alone:
the operand leads from `s₁` to `t`, and its end is in `u`. -/
theorem onward_circuit {s₁ t u : Builder} {dest : Reg} {r : Option Reg} {z : Outlook}
    (hl : SettledValue C H s.func.numRegs (operand left)) (hdest : dest ∉ C)
    (hopen : ¬ Settled C H s.func.numRegs dest)
    (hs₁ : (s₁.func.code b).length = (s.func.code b).length + 1)
    (hstart : outlook C (insert dest H) s₁ ≤ outlook C H s)
    (hr : Onward g z b (t.func.code b).length (outlook C (insert dest H) t) →
      Onward g z b (s₁.func.code b).length (outlook C (insert dest H) s₁))
    (hle : (s₁.func.code b).length ≤ (t.func.code b).length)
    (hvalue : SettledValue C (insert dest H) t.func.numRegs (operand r))
    (hu : u.func.code b = t.func.code b ++ landing dest r)
    (hend : outlook C H u ≤ outlook C (insert dest H) t) (hall : outlook C H u ≤ outlook C H s)
    (hx : (g.code b)[(s.func.code b).length]? = some (.circuit kind dest (operand left) (operand r)
      (Int64.ofNat ((u.func.code b).length - ((s.func.code b).length + 1)))))
    (hcode : ∀ i x, (s.func.code b).length < i → (u.func.code b)[i]? = some x →
      (g.code b)[i]? = some x)
    (hz : Onward g z b (u.func.code b).length (outlook C H u)) :
    Onward g z b (s.func.code b).length (outlook C H s) := by
  have hlen : (u.func.code b).length = (t.func.code b).length + (landing dest r).length := by
    rw [hu, List.length_append]
  have hj : (u.func.code b).length ≤ (g.code b).length := by
    by_cases h : (u.func.code b).length = (s.func.code b).length + 1
    · rw [h]
      exact (List.getElem?_eq_some_iff.mp hx).1
    · have hlast := hcode ((u.func.code b).length - 1) _ (by omega)
        (List.getElem?_eq_getElem (by omega))
      have := (List.getElem?_eq_some_iff.mp hlast).1
      omega
  refine .circuit hx (by omega) hj (fun q hq => not_not_intro (hl q hq)) hopen ?_ (.narrow hall hz)
  rw [← hs₁]
  refine .narrow hstart (hr ?_)
  cases r with
  | none =>
    have hsame : (u.func.code b).length = (t.func.code b).length := by simpa [landing] using hlen
    rw [← hsame]
    exact .narrow hend hz
  | some r =>
    have hmove : (g.code b)[(t.func.code b).length]? = some (.move dest r) := by
      refine hcode _ _ (by omega) ?_
      rw [hu]
      exact List.getElem?_concat_length
    refine .straight hmove trivial (fun q hq => not_not_intro (hvalue q ?_)) ?_ ?_
    · simpa [Instr.ins, operand, eq_comm] using hq
    · rintro (h | h)
      · exact hdest h
      · exact h.2 (Set.mem_insert _ _)
    · have hsucc : (u.func.code b).length = (t.func.code b).length + 1 := by
        simpa [landing] using hlen
      rw [← hsucc]
      exact .narrow hend hz

theorem settles_circuit (ar : Adds {b} right) (hl : SettledValue C H n (operand left))
    (hr : ∀ dest n, Settles g C (insert dest H) b n right) :
    Settles g C H b n (circuit b kind left right) := by
  intro s hn hs hb hc ha
  have hmem := Set.mem_singleton b
  have hs₁ : (circuitStart b kind left s).func.code b = _ := circuitStart_code hb
  have hstart : outlook C (insert ⟨s.func.numRegs⟩ H) (circuitStart b kind left s) ≤ outlook C H s :=
    outlook_circuitStart_le
  have hkept : Kept C (insert ⟨s.func.numRegs⟩ H) (circuitStart b kind left s) :=
    kept_circuitStart hs
  have hhas : ∀ c, s.func.Has c → (circuitStart b kind left s).func.Has c := fun c =>
    (grows_circuitStart hmem kind left s).func.has
  have hold : ∀ c, (circuitStart b kind left s).func.Has c → s.func.Has c := fun c h => by
    simpa [circuitStart] using h
  have hu : (circuitEnd b kind left right s).func.code b = _ := circuitEnd_code ar hb
  have hfields := @circuitEnd_fields b kind left right s
  have hland := grows_landing hmem kind left right s
  have hagree := agrees_circuit ar hb ha
  have hfrom : Builder.Grows {b} (newReg s).2 (circuitStart b kind left s) := adds_emit b _ hmem _
  have hgrow := ar (circuitStart b kind left s)
  have hall : Builder.Grows {b} s (circuitEnd b kind left right s) :=
    grows_circuitEnd hmem kind left ar s
  rw [circuit_apply] at hc ha ⊢
  -- from here on only these facts matter, not how the states came about
  generalize circuitEnd b kind left right s = u at *
  generalize circuitStart b kind left s = s₁ at *
  simp only at hc ha ⊢
  obtain ⟨hunum, husize, hunames, huenc, -⟩ := hfields
  have hcap : Captures C (right s₁).2 :=
    hc.congr (by simp only [Func.replace_numRegs, hunum]) huenc.symm
  obtain ⟨hlaid, hvalue⟩ := hr ⟨s.func.numRegs⟩ s₁.func.numRegs s₁ (le_refl _) hkept (hhas b hb)
    hcap hagree
  have hdest : ⟨s.func.numRegs⟩ ∉ C :=
    hs.fresh (hfrom.trans hgrow fun _ h _ => h) hcap
  have hopen : ¬ Settled C H s.func.numRegs ⟨s.func.numRegs⟩ :=
    hs.open_fresh (hfrom.trans hgrow fun _ h _ => h) hcap (le_refl _)
  have hlt : s.func.numRegs < u.func.numRegs := by
    have h₁ := hfrom.func.numRegs
    have h₂ := hgrow.func.numRegs
    simp only [newReg_apply, Func.newReg_numRegs] at h₁
    omega
  generalize right s₁ = t at *
  obtain ⟨hx, hcode⟩ := agrees_replace ha (by
    have := hgrow.func.length_le b
    have := hland.func.length_le b
    simp [hs₁] at *
    omega)
  refine ⟨⟨fun z hz => ?_, fun c hcs hcu => ?_, ?_⟩, ?_⟩
  · refine onward_circuit (hl.mono hn) hdest hopen (by simp [hs₁]) hstart (hlaid.onward z)
      (hgrow.func.length_le b) hvalue hu (outlook_le_insert _ husize hunum) hall.outlook_le hx hcode ?_
    simpa [outlook, Func.replace_code_self] using hz
  · refine hlaid.planned c (fun h => hcs (hold c h)) ⟨hcu.1, ?_⟩
    simpa [husize] using hcu.2
  · refine ⟨?_, ?_, ?_, ?_⟩
    · simpa [hunum] using hlaid.kept.numRegs
    · simpa [hunum, huenc] using hlaid.kept.scope
    · intro r hr
      simpa using lt_trans (hs.hidden r hr) hlt
    · intro p hp
      simpa using (hs.names p (hunames ▸ hp)).mono (le_of_lt hlt)
  · refine settledValue_reg.mpr (hs.settled_fresh ?_)
    simpa using hlt

end

theorem settles_binary {left right : Build (Option Reg)} (hadd : Adds {b} left ∧ Adds {b} right)
    (pos : Position) (op : String) (hl : Settles g C H b n left)
    (hr : ∀ H n, Settles g C H b n right) : Settles g C H b n (binary b pos op left right) := by
  refine Orders.bind (by grind) hl fun l n₁ _ hleft => ?_
  split
  · exact settles_circuit hadd.2 hleft fun dest n => hr (insert dest H) n
  · split
    · exact settles_degrade pos _
    · rename_i instr hop
      refine Orders.bind (by grind) (hr H n₁) fun r n₂ hn hright => ?_
      refine orders_produce (x := fun q => instr q (operand l) (operand r))
        (fun q => (operator?_spec hop q _ _).1.straight) (fun q => (operator?_spec hop q _ _).2.1)
        fun q v hv => ?_
      rw [(operator?_spec hop q _ _).2.2] at hv
      rcases List.mem_pair.mp hv with rfl | rfl
      · exact hleft.mono hn
      · exact hright

/-! ## Closures -/

theorem orders_newRegs (ns : List String) :
    Orders g C H b n (newRegs ns) fun rs n' => ∀ r ∈ rs, Settled C H n' r := by
  induction ns generalizing n with
  | nil => exact orders_pure fun _ _ => by simp
  | cons name ns ih =>
    refine orders_newReg.bind (by grind) fun r n₁ _ hr => ?_
    refine Orders.bind (by grind) ih fun rs n₂ hn hrs => ?_
    refine orders_pure fun n₃ hn' => List.forall_mem_cons.mpr ⟨hr.mono (le_trans hn hn'), ?_⟩
    exact fun q hq => (hrs q hq).mono hn'

theorem orders_bindAll (ns : List String) {rs : List Reg} (hrs : ∀ r ∈ rs, Settled C H n r) :
    Orders g C H b n (bindAll ns rs) fun _ _ => True := by
  induction ns generalizing rs n with
  | nil => exact orders_pure fun _ _ => trivial
  | cons name ns ih =>
    cases rs with
    | nil => exact orders_pure fun _ _ => trivial
    | cons r rs =>
      refine (orders_bind_name name (hrs r List.mem_cons_self)).bind (by grind) fun _ n₁ hn _ => ?_
      exact ih fun q hq => (hrs q (List.mem_cons_of_mem r hq)).mono hn

/-- Captures are settled from the start, so a further one changes nothing that is settled. -/
theorem kept_captureName (pos : Position) (name : String) {s : Builder} (hs : Kept C H s) :
    (captureName pos name s).2.func.blocks = s.func.blocks ∧
      Kept C H (captureName pos name s).2 := by
  have hle := (adds_captureName (S := ∅) pos name s).func.numRegs
  have hnames : (captureName pos name s).2.names = s.names ∧
      (captureName pos name s).2.func.blocks = s.func.blocks ∧
      ScopeOk (captureName pos name s).2.func.numRegs (captureName pos name s).2.enclosing := by
    rcases hen : s.enclosing with _ | ⟨en, es⟩
    · obtain ⟨p, f, ns, es, ds⟩ := s
      obtain rfl : es = [] := hen
      exact ⟨rfl, rfl, trivial⟩
    · obtain ⟨hf, -, hnames⟩ := captureName_apply pos name hen
      obtain ⟨-, hblocks, -⟩ := resolve_grows name s.func en.outer es
      exact ⟨hnames, by rw [hf, Func.newReg_blocks, hblocks],
        scopeOk_captureName pos name hen hs.numRegs hs.scope⟩
  refine ⟨hnames.2.1, le_trans hs.numRegs hle, hnames.2.2,
    fun r hr => lt_of_lt_of_le (hs.hidden r hr) hle, fun p hp => ?_⟩
  rw [hnames.1] at hp
  exact (hs.names p hp).mono hle

theorem orders_captureListed (pos : Position) (ns : List String) :
    Orders g C H b n (captureListed pos ns) fun _ _ => True := by
  induction ns generalizing n with
  | nil => exact orders_pure fun _ _ => trivial
  | cons name ns ih =>
    have hname : Orders g C H b n (captureName pos name) fun _ _ => True :=
      .of_still (by grind) fun s _ hs _ =>
        ⟨(kept_captureName pos name hs).1, (kept_captureName pos name hs).2, trivial⟩
    exact hname.bind (by grind) fun _ _ _ _ => ih

theorem orders_closureBody {c : BlockId} {body : Build (Option Reg)} (ab : Adds {c} body)
    (pos : Position) (params captures : List String) (hbody : ∀ n, Settles g C H c n body) :
    Orders g C H c n (closureBody c pos params captures body) fun _ _ => True := by
  refine (orders_newRegs params).bind (by grind) fun regs n₁ _ hregs => ?_
  refine (orders_bindAll params hregs).bind (by grind) fun _ n₂ _ _ => ?_
  refine (orders_captureListed pos captures).bind (by grind) fun _ n₃ _ _ => ?_
  refine Orders.bind (by grind) (hbody n₃) fun r n₄ _ hr => ?_
  exact (orders_sealBody hr).bind (by grind) fun _ _ _ _ => orders_pure fun _ _ => trivial

theorem settles_closure {body : BlockId → Build (Option Reg)} (ab : ∀ c, Adds {c} (body c))
    (pos : Position) (params captures : List String) (hbody : ∀ c C n, Settles g C ∅ c n (body c)) :
    Settles g C H b n (closure b pos params captures body) := by
  intro s hn hs hb hc ha
  have hadds := adds_closureBody (Set.mem_singleton ⟨s.func.blocks.size⟩) pos params captures
    (ab ⟨s.func.blocks.size⟩)
  obtain ⟨en, es, hen, houter, hes, heq⟩ := enclosed_apply hadds (newBlock s).2
  have hlaw := orders_closureBody (ab _) (n := s.func.numRegs) pos params captures
    (hbody ⟨s.func.blocks.size⟩ (capturedRegs (en :: es))) (newBlock s).2.enclose (le_refl _)
  have hgrow := hadds (newBlock s).2.enclose
  rw [closure_apply, heq] at hc ha ⊢
  generalize closureBody ⟨s.func.blocks.size⟩ pos params captures (body ⟨s.func.blocks.size⟩)
    (newBlock s).2.enclose = bt at *
  obtain ⟨regs, t⟩ := bt
  simp only at hen hc ha hgrow hlaw ⊢
  have hnew := s.func.not_has_size
  have hs₀ := grows_newBlock s
  have hhas₀ : (newBlock s).2.enclose.func.Has ⟨s.func.blocks.size⟩ := s.func.newBlock_has_self
  obtain ⟨hcode, hgrows, hagree⟩ := behind_closureBody hb hgrow hes ha
  -- the body, in a frame of its own
  obtain ⟨hbody, -⟩ := hlaw ⟨hs.numRegs, ⟨by simp, by simp, hs.scope⟩, by simp,
    fun p hp => by cases hp⟩ hhas₀ (fun r _ => by rw [hen]) ((hagree.right hs₀).congr rfl rfl)
  have hfin := hagree.finished _ hnew (hgrow.func.has hhas₀) id
  have hplanned : g.Planned ⟨s.func.blocks.size⟩ := by
    refine ⟨outlook (capturedRegs (en :: es)) ∅ (newBlock s).2.enclose,
      outlook (capturedRegs (en :: es)) ∅ t, ?_, ?_⟩
    · exact lt_outlook_newBlock _ ∅ s
    · have h := hbody.onward (outlook (capturedRegs (en :: es)) ∅ t)
        (.stop (by rw [hfin]) (Outlook.le_refl _))
      simpa [Builder.enclose] using h
  -- the instruction that makes the closure
  have hscope := hbody.kept.scope
  rw [hen] at hscope
  have hle := hgrows.func.numRegs
  have hkept : Kept C H { t with names := s.names, enclosing := es } :=
    ⟨hbody.kept.numRegs, hscope.2.2, fun r hr => lt_of_lt_of_le (hs.hidden r hr) hle,
      fun p hp => (hs.names p hp).mono hle⟩
  have hprod := adds_produce (Set.mem_singleton b)
    (.closureCreate · ⟨s.func.blocks.size⟩ en.captures regs params)
    { t with names := s.names, enclosing := es }
  have hins : ∀ v ∈ en.captures.map (·.value), SettledValue C H s.func.numRegs v := by
    intro v hv r hr
    obtain ⟨cp, hcp, rfl⟩ := List.mem_map.mp hv
    have hready := (hscope.2.1 cp hcp).2
    rw [hr, houter] at hready
    rcases hready with ⟨p, hp, rfl⟩ | hcap
    · exact hs.names p hp
    · exact (hc.left hprod).settled hscope.2.2 hcap _
  obtain ⟨hmade, hres⟩ := orders_produce (n := s.func.numRegs)
    (x := (.closureCreate · ⟨s.func.blocks.size⟩ en.captures regs params)) (fun _ => trivial)
    (fun _ => rfl) (fun _ => hins) { t with names := s.names, enclosing := es } hle hkept
    (hgrows.func.has hb) hc (ha.right hgrows)
  refine ⟨⟨fun z hz => ?_, fun c hcs hcu => ?_, hmade.kept⟩, hres⟩
  · have h := hmade.onward z hz
    simp only [hcode] at h
    exact .narrow hgrows.outlook_le h
  · by_cases hct : t.func.Has c
    · by_cases hc₀ : (newBlock s).2.func.Has c
      · rcases (Func.newBlock_has_iff s.func c).mp hc₀ with h | rfl
        · exact absurd h hcs
        · exact hplanned
      · exact hbody.planned c hc₀ hct
    · exact hmade.planned c hct hcu

end Lowering

end ScriptMachine
