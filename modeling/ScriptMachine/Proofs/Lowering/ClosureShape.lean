import ScriptMachine.Proofs.Lowering.CodeShape

/-!
# The shape of closures

The body of a closure is a block of its own, in which the registers that the closure captures and
those of its parameters are set. What it captures is visible where it is created.
-/

namespace ScriptMachine.Lowering

open Build

variable {g : Func} {k : Context} {quiet : Prop} {b : BlockId} {D : Set Reg} {e f : Flow}

/-! ## Instructions that enter blocks -/

section
variable {u : Builder} {x : Reg → Instr} {E : Set Reg} {subs : List Sub}

theorem produce_apply (b : BlockId) (x : Reg → Instr) (u : Builder) :
    produce b x u = (some ⟨u.func.numRegs⟩,
      { u with func := u.func.newReg.1.append b (x ⟨u.func.numRegs⟩) }) := rfl

theorem produce_code (hb : u.func.Has b) :
    (produce b x u).2.func.code b = u.func.code b ++ [x ⟨u.func.numRegs⟩] :=
  Func.append_code_self ((Func.newReg_has u.func b).mpr hb) _

/-- What is known of blocks that an instruction enters, made from the number `n` to the number `n'`,
where the registers `D` are set. -/
structure Entered (g : Func) (k : Context) (x : Instr) (D : Set Reg) (n : Nat) (subs : List Sub)
    (n' : Nat) : Prop where
  enters : x.Enters
  ins : ∀ v ∈ x.ins, Ready D v
  sane : x.Sane g
  refs : x.refs.Perm (subs.map (·.ref))
  chain : Chain n subs n'
  has : ∀ s ∈ subs, g.Has s.ref.block
  shape : ∀ s ∈ subs, Shape g (k.enter s.ref.entry) s.ref.block
    ⟨0, s.ref.block.index.toNat + 1, x.given D s.ref.block, .live⟩
    ⟨(g.code s.ref.block).length, s.stop, s.regs, s.flow⟩

/-- An instruction that enters blocks, with a new register for its result. In the end the registers
`E` are set too, which a block sets that always runs. -/
theorem shape_enter (x : Reg → Instr) {O : Set BlockId} {n : Nat} (hu : Around k u (D ∪ E))
    (hb : u.func.Has b) (ha : Agrees g O u (produce b x u).2) (ho : ∀ r, (x r).out = r)
    (h : Entered g k (x ⟨u.func.numRegs⟩) D n subs u.func.blocks.size)
    (hE : ∀ r ∈ E, ∃ s ∈ subs, (x ⟨u.func.numRegs⟩).Always s.ref.block ∧ r ∈ s.regs) :
    ∃ D', D ⊆ D' ∧
      Shape g k b ⟨(u.func.code b).length, n, D, e⟩
        ((produce b x u).2.point b D' (e.enter (subs.map (·.flow)))) ∧
      Situation k b (produce b x u).2 D' (e.enter (subs.map (·.flow))) ∧
      Ready D' (operand (produce b x u).1) := by
  have hcode := @produce_code b u x hb
  have hx := ha.code b (u.func.code b).length (x ⟨u.func.numRegs⟩) (le_refl _)
    (by rw [hcode]; exact List.getElem?_concat_length)
  have hnum : (produce b x u).2.func.numRegs = u.func.numRegs + 1 := by simp [produce_apply]
  have hout : g.InRange (x ⟨u.func.numRegs⟩).out := by
    rw [ho]
    refine ha.inRange ⟨hu.numRegs, ?_⟩
    simp only [hnum]
    omega
  refine ⟨insert ⟨u.func.numRegs⟩ (D ∪ E), Set.subset_union_left.trans (Set.subset_insert _ _),
    ?_, ?_, Set.mem_insert _ _⟩
  · refine .enter subs hx h.enters h.ins hout h.sane h.refs h.chain h.has h.shape hE ?_
    rw [ho, Builder.point, hcode]
    simp only [produce_apply, Func.append_size, Func.newReg_blocks, List.length_append,
      List.length_singleton]
    exact .refl _
  · have hle : u.func.numRegs ≤ (produce b x u).2.func.numRegs := by omega
    exact {
      numRegs := le_trans hu.numRegs hle
      closure := hu.closure
      scope := hu.scope.mono hle
      names := fun p hp => Set.mem_insert_of_mem _ (hu.names p hp)
      has := (Func.append_has _ b b _).mpr hb
      live := fun _ => by rw [hcode, endsBlock_append, h.enters.not_terminator]
      ended := fun he => absurd he (Flow.enter_ne_ended e _) }

end

/-! ## The body of a closure -/

theorem shaped_newRegs (ns : List String) :
    Shaped g k quiet b D e (newRegs ns) fun rs D' e' =>
      ((∀ r ∈ rs, g.InRange r) ∧ rs.length = ns.length) ∧ D' = D ∧ e' = e := by
  induction ns with
  | nil => exact shaped_pure ⟨⟨by simp, rfl⟩, rfl, rfl⟩
  | cons n ns ih =>
    refine shaped_newReg.bind (by grind) ?_
    rintro r D₁ e₁ - ⟨hr, rfl, rfl⟩
    refine Shaped.bind (by grind) ih ?_
    rintro rs D₂ e₂ - ⟨⟨hrs, hlen⟩, rfl, rfl⟩
    refine shaped_pure ⟨⟨?_, by simp [hlen]⟩, rfl, rfl⟩
    simpa [hr] using hrs

theorem shaped_bindAll (ns : List String) {rs : List Reg} (hrs : ∀ r ∈ rs, r ∈ D) :
    Shaped g k quiet b D e (bindAll ns rs) fun _ D' e' => D' = D ∧ e' = e := by
  induction ns generalizing rs with
  | nil => exact shaped_pure ⟨rfl, rfl⟩
  | cons n ns ih =>
    cases rs with
    | nil => exact shaped_pure ⟨rfl, rfl⟩
    | cons r rs =>
      refine (shaped_bind_name n (hrs r List.mem_cons_self)).bind (by grind) ?_
      rintro _ D₁ e₁ - ⟨rfl, rfl⟩
      exact ih fun q hq => hrs q (List.mem_cons_of_mem r hq)

/-- What is captured under a name: the register that it stands for outside, else a string. -/
def capturedValue (name : String) : Option Reg → Value
  | some r => .reg r
  | none => .string name

variable {s : Builder}

theorem captureName_apply (pos : Position) (name : String) {en : Enclosure}
    {es : List Enclosure} (h : s.enclosing = en :: es) :
    (captureName pos name s).2.func = (resolve name s.func en.outer es).2.1.newReg.1 ∧
      (captureName pos name s).2.enclosing =
        en.capture name (capturedValue name (resolve name s.func en.outer es).1)
          ⟨(resolve name s.func en.outer es).2.1.numRegs⟩ ::
          (resolve name s.func en.outer es).2.2 ∧
      (captureName pos name s).2.names = s.names := by
  obtain ⟨p, f, ns, _ | ⟨en', es'⟩, ds⟩ := s
  · cases h
  · cases h
    rcases hr : resolve name f en.outer es with ⟨_ | r, f', es'⟩
    · simp only [captureName, bind_apply, lookupOutside, modifyGet, MonadStateOf.modifyGet,
        StateT.modifyGet, hr, capture_apply, complain_apply, pure, and_true]
      exact ⟨trivial, rfl⟩
    · simp only [captureName, bind_apply, lookupOutside, modifyGet, MonadStateOf.modifyGet,
        StateT.modifyGet, hr, capture_apply, pure, and_true]
      exact ⟨trivial, rfl⟩

theorem scopeOk_captureName (pos : Position) (name : String) {en : Enclosure}
    {es : List Enclosure} (hen : s.enclosing = en :: es) (hn : 0 ≤ s.func.numRegs)
    (hscope : ScopeOk s.func.numRegs s.enclosing) :
    ScopeOk (captureName pos name s).2.func.numRegs (captureName pos name s).2.enclosing := by
  obtain ⟨hf, henc, -⟩ := captureName_apply pos name hen
  obtain ⟨hext, -, hgrow⟩ := resolve_grows name s.func en.outer es
  rw [hen] at hscope
  obtain ⟨hok, hvis⟩ := resolve_scope name hn en.outer hscope.2.2
  have hnew := (Func.extends_newReg (resolve name s.func en.outer es).2.1).numRegs
  rw [hf, henc]
  refine (((hscope.mono hext.numRegs).cons_grow hgrow hok).mono hnew).capture name ⟨?_, ?_⟩ ?_
  · exact le_trans hn hext.numRegs
  · exact Int.lt_succ _
  · rcases h : (resolve name s.func en.outer es).1 with _ | r
    · trivial
    · exact hvis r h

theorem shaped_captureName (hk : k.closure = true) (pos : Position) (name : String) :
    Shaped g k quiet b D e (captureName pos name) fun _ D' e' => D' = D ∧ e' = e := by
  refine .of_still fun s hs _ _ _ => ?_
  rcases hen : s.enclosing with _ | ⟨en, es⟩
  · have := hs.closure
    simp [hen, hk] at this
  · obtain ⟨hf, henc, hnames⟩ := captureName_apply pos name hen
    obtain ⟨hext, hblocks, -⟩ := resolve_grows name s.func en.outer es
    have hcode : ∀ c, (captureName pos name s).2.func.code c = s.func.code c := fun c => by
      rw [hf, Func.newReg_code, Func.code_congr hblocks]
    have hnew := (Func.extends_newReg (resolve name s.func en.outer es).2.1).numRegs
    refine ⟨hcode b, by rw [hf, Func.newReg_blocks, hblocks], ?_, rfl, rfl⟩
    refine { numRegs := ?_, closure := ?_, scope := ?_, names := ?_, has := ?_, live := ?_,
             ended := ?_ }
    · rw [hf]
      exact le_trans hs.numRegs (le_trans hext.numRegs hnew)
    · simp [henc, hk]
    · exact scopeOk_captureName pos name hen hs.numRegs hs.scope
    · exact fun p hp => hs.names p (hnames ▸ hp)
    · rw [hf]
      exact hext.has hs.has
    · exact fun h => by rw [hcode, hs.live h]
    · exact fun h => by rw [hcode, hs.ended h]

theorem shaped_captureListed (hk : k.closure = true) (pos : Position) (ns : List String) :
    Shaped g k quiet b D e (captureListed pos ns) fun _ D' e' => D' = D ∧ e' = e := by
  induction ns with
  | nil => exact shaped_pure ⟨rfl, rfl⟩
  | cons n ns ih =>
    refine (shaped_captureName hk pos n).bind (by grind) ?_
    rintro _ D₁ e₁ - ⟨rfl, rfl⟩
    exact ih

/-- The body of a closure, in registers that hold its parameters. -/
theorem shapedAt_closureBody {c : BlockId} {body : Build (Option Reg)} (ab : Adds {c} body)
    (pos : Position) (params captures : List String)
    (hbody : ∀ D₁ e₁, Lowers g ⟨true, false⟩ quiet c D₁ e₁ body f)
    (hparams : ∀ r ∈ (newRegs params s).1, r ∈ D) :
    ShapedAt g ⟨true, false⟩ quiet c D .live (closureBody c pos params captures body)
      (fun regs _ e' => ((∀ r ∈ regs, g.InRange r) ∧ regs.length = params.length) ∧
        ∃ r e₁, Flow.Follows quiet f .live r e₁ ∧ e' = e₁.sealed) s := by
  refine (shaped_newRegs params s).bind (by grind) ?_
  rintro D₁ e₁ - ⟨hregs, rfl, rfl⟩
  refine Shaped.bind (by grind) (shaped_bindAll params hparams) ?_ (s := _)
  rintro _ D₂ e₂ - ⟨rfl, rfl⟩
  refine (shaped_captureListed rfl pos captures).bind (by grind) ?_
  rintro _ D₃ e₃ - ⟨rfl, rfl⟩
  refine Shaped.bind (by grind) (hbody _ _) ?_
  rintro r D₄ e₄ - ⟨hr, hf⟩
  refine (shaped_sealBody hr).bind (by grind) ?_
  rintro _ D₅ e₅ - ⟨rfl, rfl⟩
  exact shaped_pure ⟨hregs, r, e₄, hf, rfl⟩

/-- The parameters of a closure are the first registers that its body takes. -/
theorem closureBody_fst (c : BlockId) (pos : Position) (params captures : List String)
    (body : Build (Option Reg)) (s : Builder) :
    (closureBody c pos params captures body s).1 = (newRegs params s).1 := rfl

/-- The block of a closure, as its body finds it. -/
theorem situation_enclose (hs : Around k s D) (E : Set Reg) :
    Situation ⟨true, false⟩ ⟨s.func.blocks.size⟩ (newBlock s).2.enclose E .live where
  numRegs := hs.numRegs
  closure := rfl
  scope := ⟨by simp, by simp, hs.scope⟩
  names p hp := by cases hp
  has := s.func.newBlock_has_self
  live _ := by simp [Builder.enclose]
  ended h := by cases h

/-- A closure in the words of the code: its body is lowered into a new block, among names of its own. -/
theorem closure_apply (b : BlockId) (pos : Position) (params captures : List String)
    (body : BlockId → Build (Option Reg)) (s : Builder) :
    closure b pos params captures body s = (fun x : (List Reg × List (Capture Value)) × Builder =>
      produce b (.closureCreate · ⟨s.func.blocks.size⟩ x.1.2 x.1.1 params) x.2)
      (enclosed (closureBody ⟨s.func.blocks.size⟩ pos params captures
        (body ⟨s.func.blocks.size⟩)) (newBlock s).2) :=
  rfl

theorem grows_newBlock (s : Builder) : Builder.Grows ∅ s (newBlock s).2 :=
  ⟨Func.extends_newBlock s.func, .refl _ _, List.prefix_rfl⟩

/-- Behind the body of a closure, which leads to `t`, its own block has all its code, and the others are
as they were. -/
theorem behind_closureBody {t : Builder} {es : List Enclosure} {x : Reg → Instr} (hb : s.func.Has b)
    (hgrow : Builder.Grows {⟨s.func.blocks.size⟩} (newBlock s).2.enclose t)
    (hes : Enclosing.Grow s.func.numRegs s.enclosing es)
    (ha : Agrees g ∅ s (produce b x { t with names := s.names, enclosing := es }).2) :
    t.func.code b = s.func.code b ∧
      Builder.Grows ∅ s { t with names := s.names, enclosing := es } ∧ Agrees g ∅ s t := by
  have hnew := s.func.not_has_size
  have hs₀ := grows_newBlock s
  have hne : b ≠ ⟨s.func.blocks.size⟩ := by
    rintro rfl
    exact hnew hb
  refine ⟨?_, ⟨hs₀.func.trans hgrow.func (by rintro c rfl h; exact absurd h hnew), hes, hgrow.diags⟩,
    Agrees.congr (ha.left (adds_produce (Set.mem_singleton b) _ _) ?_) rfl rfl⟩
  · rw [hgrow.func.kept b (hs₀.func.has hb) hne]
    exact Func.newBlock_code s.func b
  · rintro c rfl
    exact .inl hb

theorem lowers_closure {body : BlockId → Build (Option Reg)} (ab : ∀ c, Adds {c} (body c))
    (pos : Position) (params captures : List String)
    (hbody : ∀ c D₁ e₁, Lowers g ⟨true, false⟩ quiet c D₁ e₁ (body c) f) :
    Lowers g k quiet b D e (closure b pos params captures body) (.ofLive (f ≠ .broken)) := by
  intro s hs hc ha hd
  have hadds := adds_closureBody (Set.mem_singleton ⟨s.func.blocks.size⟩) pos params captures
    (ab ⟨s.func.blocks.size⟩)
  obtain ⟨en, es, hen, houter, hes, heq⟩ := enclosed_apply hadds (newBlock s).2
  have hsit := @situation_enclose k D s hs.toAround
    {r | r ∈ en.captures.map (·.reg) ∨ r ∈ (newRegs params (newBlock s).2.enclose).1}
  have hshape := shapedAt_closureBody (ab _) pos params captures
    (hbody ⟨s.func.blocks.size⟩) (D := {r | r ∈ en.captures.map (·.reg) ∨
      r ∈ (newRegs params (newBlock s).2.enclose).1}) fun r hr => .inr hr
  have hfst := closureBody_fst ⟨s.func.blocks.size⟩ pos params captures
    (body ⟨s.func.blocks.size⟩) (newBlock s).2.enclose
  have hgrow := hadds (newBlock s).2.enclose
  rw [closure_apply, heq] at hc ha hd ⊢
  rw [← hfst] at hsit hshape
  unfold ShapedAt at hshape
  -- from here on only the state `t` behind the body matters, and the registers of its parameters
  generalize closureBody ⟨s.func.blocks.size⟩ pos params captures (body ⟨s.func.blocks.size⟩)
    (newBlock s).2.enclose = bt at *
  obtain ⟨regs, t⟩ := bt
  simp only at hen hc ha hd hsit hshape hgrow hfst ⊢
  have hnew := s.func.not_has_size
  have hs₀ := grows_newBlock s
  obtain ⟨hcode, hgrows, hagree⟩ := behind_closureBody hs.has hgrow hes ha
  have hhas : t.func.Has ⟨s.func.blocks.size⟩ := hgrow.func.has hsit.has
  have hfin := hagree.finished _ hnew hhas id
  obtain ⟨D', e', hD', hsh, ht, ⟨hregs, hlen⟩, r, e₁, hf, rfl⟩ := hshape hsit
    (by rw [hen]; rintro q ⟨cp, hcp, rfl⟩; exact .inl (List.mem_map_of_mem hcp))
    ((hagree.right hs₀).congr rfl rfl) hd
  have hscope := ht.scope
  rw [hen] at hscope
  have hvis : visibleRegs en.outer es ⊆ D := by
    rw [houter]
    exact Set.union_subset (by rintro q ⟨p, hp, rfl⟩; exact hs.names p hp) hc
  have haround : Around k { t with names := s.names, enclosing := es } (D ∪ ∅) :=
    ⟨ht.numRegs, (isEmpty_of_grow hes).trans hs.closure, hscope.2.2,
      fun p hp => .inl (hs.names p hp)⟩
  have hpoint : s.point b D e = ⟨(t.func.code b).length, s.func.blocks.size, D, e⟩ := by
    rw [Builder.point, hcode]
  have hentered : Entered g k
      (.closureCreate ⟨t.func.numRegs⟩ ⟨s.func.blocks.size⟩ en.captures regs params) D
      s.func.blocks.size
      [⟨⟨⟨s.func.blocks.size⟩, .closure⟩, t.func.blocks.size, ∅, e₁.sealed⟩]
      t.func.blocks.size := by
    refine ⟨trivial, ?_, ⟨hlen, hregs, ?_⟩, .refl _, ⟨rfl, rfl⟩, ?_, ?_⟩
    · intro v hv
      obtain ⟨cp, hcp, rfl⟩ := List.mem_map.mp hv
      exact (hscope.2.1 cp hcp).2.mono hvis
    · exact fun cp hcp => hagree.inRange (hscope.2.1 cp hcp).1
    · simpa using hagree.has hhas
    · intro q hq
      obtain rfl := List.mem_singleton.mp hq
      rw [hfin]
      have hstart : (newBlock s).2.enclose.point ⟨s.func.blocks.size⟩
          {r | r ∈ en.captures.map (·.reg) ∨ r ∈ regs} .live =
          ⟨0, s.func.blocks.size + 1, {r | r ∈ en.captures.map (·.reg) ∨ r ∈ regs}, .live⟩ := by
        simp [Builder.point, Builder.enclose]
      rw [hstart] at hsh
      exact hsh.forget (Set.empty_subset _)
  obtain ⟨D₂, hD₂, hsh₂, hs₂, hr₂⟩ := shape_enter (e := e)
    (.closureCreate · ⟨s.func.blocks.size⟩ en.captures regs params) haround (hgrows.func.has hs.has)
    (ha.right hgrows) (fun _ => rfl) hentered (by simp)
  rw [hpoint]
  refine ⟨D₂, _, hD₂, hsh₂, hs₂, hr₂, ?_⟩
  have hflow : f ≠ .broken ∨ quiet → ((∀ f' ∈ [e₁.sealed], f' = .ended) ↔ f ≠ .broken) :=
    fun h => by simpa using hf.sealed h
  have := (Flow.Lives.refl quiet e).follows_enter hflow (produce b
      (.closureCreate · ⟨s.func.blocks.size⟩ en.captures regs params)
      { t with names := s.names, enclosing := es }).1
  rwa [Flow.ofLive_congr (iff_of_eq (true_and (f ≠ .broken)))] at this

end ScriptMachine.Lowering
