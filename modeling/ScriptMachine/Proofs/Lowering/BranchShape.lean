import ScriptMachine.Proofs.Lowering.ClosureShape

/-!
# The shape of branches

A branch is lowered into a block of its own and ended later, when all branches are known. `Open` says
of a branch what its code is like in between. `Gathers` is the law of a step that makes branches for
the arms of a dispatch: the blocks of the branches follow each other, and the arms and the default
refer to each of them once.
-/

namespace ScriptMachine.Lowering

open Build
open Instr (BlockRef)

variable {g : Func} {k : Context} {quiet : Prop} {b : BlockId} {D : Set Reg} {e f : Flow}
  {br : Branch}

/-! ## One branch -/

/-- A branch as it stands in state `t`, where the registers `D` are set at its start. Of `sub`, the
flow and the registers are those at the end of the code so far. -/
structure Open (g : Func) (k : Context) (D : Set Reg) (t : Builder) (br : Branch) (sub : Sub) :
    Prop where
  ref : sub.ref = ⟨br.block, .nested⟩
  has : t.func.Has br.block
  shape : Shape g ⟨k.closure, true⟩ br.block ⟨0, br.block.index.toNat + 1, D, .live⟩
    ⟨(t.func.code br.block).length, sub.stop, sub.regs, sub.flow⟩
  last : Ready sub.regs (operand br.last)
  names : ∀ p ∈ br.names, p.2 ∈ sub.regs
  live : sub.flow = .live → endsBlock (t.func.code br.block) = false
  ended : sub.flow = .ended → endsBlock (t.func.code br.block) = true

theorem Open.wide {t : Builder} {sub : Sub} (h : Open g k D t br sub) : sub.Wide := by
  have := h.shape.blocks_le
  rw [Sub.Wide, h.ref]
  exact this

/-- A branch stays as it is while other blocks grow. -/
theorem Open.grows {S : Set BlockId} {s t : Builder} {sub : Sub} (h : Open g k D s br sub)
    (hg : Builder.Grows S s t) (hS : br.block ∉ S) : Open g k D t br sub := by
  have hcode := hg.func.kept br.block h.has hS
  exact { h with
    has := hg.func.has h.has
    shape := hcode ▸ h.shape
    live := hcode ▸ h.live
    ended := hcode ▸ h.ended }

theorem situation_newBlock {s : Builder} (hs : Around k s D) :
    Situation ⟨k.closure, true⟩ ⟨s.func.blocks.size⟩ (newBlock s).2 D .live where
  numRegs := hs.numRegs
  closure := hs.closure
  scope := hs.scope
  names := hs.names
  has := s.func.newBlock_has_self
  live _ := by simp
  ended h := by cases h

theorem point_newBlock (s : Builder) (D : Set Reg) : (newBlock s).2.point ⟨s.func.blocks.size⟩ D .live =
    ⟨0, s.func.blocks.size + 1, D, .live⟩ := by
  simp [Builder.point]

/-- Once a block is made, it is one of those that were there. -/
theorem agrees_newBlock {s t : Builder} (h : Agrees g {⟨s.func.blocks.size⟩} s t) :
    Agrees g ∅ (newBlock s).2 t := by
  have h := h.right (grows_newBlock s)
  refine { h with finished := fun c hc ht _ => h.finished c hc ht ?_ }
  rintro rfl
  exact hc s.func.newBlock_has_self

/-- The steps of a branch: it may have a name of its own for what was caught. -/
def owned (own : String) (caught : Reg) (m : Build (Option Reg)) : Build (Option Reg) :=
  if own ≠ "" then Build.bind own caught >>= fun _ => m else m

@[grind .]
theorem adds_owned {S : Set BlockId} (own : String) (caught : Reg) {m : Build (Option Reg)}
    (am : Adds S m) : Adds S (owned own caught m) :=
  adds_ite ((adds_bind_name own caught).bind fun _ => am) am

theorem lowers_owned {m : Build (Option Reg)} (am : Adds {b} m) (own : String) {caught : Reg}
    (hown : own ≠ "" → caught ∈ D) (hm : Lowers g k quiet b D e m f) :
    Lowers g k quiet b D e (owned own caught m) f := by
  unfold owned
  split
  · rename_i h
    refine (shaped_bind_name own (hown h)).bind (by grind) ?_
    rintro _ D₁ e₁ - ⟨rfl, rfl⟩
    exact hm
  · exact hm

theorem branch_apply (own : String) (caught : Reg) (body : BlockId → Build (Option Reg))
    (s : Builder) : branch own caught body s =
      (fun x : Option Reg × Builder => ((⟨⟨s.func.blocks.size⟩, x.1, x.2.names, own⟩ : Branch),
        { x.2 with names := s.names }))
      (owned own caught (body ⟨s.func.blocks.size⟩) (newBlock s).2) := by
  simp only [branch, owned, bind_apply, newBlock_apply, isolated_apply, pure_apply]

theorem open_branch (own : String) (caught : Reg) (hown : own ≠ "" → caught ∈ D)
    {body : BlockId → Build (Option Reg)} (ab : ∀ c, Adds {c} (body c))
    (hbody : ∀ c D₁ e₁, Lowers g ⟨k.closure, true⟩ quiet c D₁ e₁ (body c) f) {s : Builder}
    (hs : Around k s D) (hc : capturedRegs (branch own caught body s).2.enclosing ⊆ D)
    (ha : Agrees g {⟨s.func.blocks.size⟩} s (branch own caught body s).2)
    (hd : quiet → (branch own caught body s).2.diags = s.diags) :
    ∃ sub, Open g k D (branch own caught body s).2 (branch own caught body s).1 sub ∧
      Chain s.func.blocks.size [sub] (branch own caught body s).2.func.blocks.size ∧
      Around k (branch own caught body s).2 D ∧
      ∃ r, Flow.Follows quiet f .live r sub.flow := by
  have hlow := lowers_owned (ab _) own hown (hbody ⟨s.func.blocks.size⟩ D .live) (newBlock s).2
  have hgrow := adds_owned own caught (ab ⟨s.func.blocks.size⟩) (newBlock s).2
  rw [branch_apply] at hc ha hd ⊢
  unfold ShapedAt at hlow
  generalize owned own caught (body ⟨s.func.blocks.size⟩) (newBlock s).2 = rt at *
  obtain ⟨r, t⟩ := rt
  simp only at hc ha hd hlow hgrow ⊢
  obtain ⟨D', e', hD', hsh, ht, hr, hf⟩ := hlow (situation_newBlock hs) hc
    ((agrees_newBlock ha).congr rfl rfl) hd
  rw [point_newBlock] at hsh
  refine ⟨⟨⟨⟨s.func.blocks.size⟩, .nested⟩, t.func.blocks.size, D', e'⟩, ?_, ⟨rfl, rfl⟩, ?_, r, hf⟩
  · exact ⟨rfl, ht.has, hsh, hr, ht.names, ht.live, ht.ended⟩
  · exact ⟨ht.numRegs, ht.closure, ht.scope, hs.names⟩

/-! ## Gathering branches -/

/-- The blocks that arms and default refer to. -/
def Arms.refs (a : Arms) : List BlockRef :=
  a.arms.map (⟨·.block, .nested⟩) ++ Instr.optional a.default

/-- The branches gathered in `a` when the blocks from the number `n` on were made. -/
structure Gathered (g : Func) (k : Context) (D : Set Reg) (n : Nat) (a : Arms) (subs : List Sub)
    (t : Builder) : Prop where
  opened : List.Forall₂ (Open g k D t) a.branches subs
  chain : Chain n subs t.func.blocks.size
  refs : a.refs.Perm (a.branches.map (⟨·.block, .nested⟩))
  patterns : ∀ arm ∈ a.arms, Ready ∅ arm.pattern

/-- The law of a step that makes branches, where `p` says that no tree of theirs is broken. -/
def Gathers (g : Func) (k : Context) (quiet : Prop) (D : Set Reg) (m : Arms → Build Arms)
    (p : Prop) : Prop :=
  ∀ a s n subs, Gathered g k D n a subs s → Around k s D →
    capturedRegs (m a s).2.enclosing ⊆ D →
    Agrees g (blocksOf (m a s).1.branches) s (m a s).2 → (quiet → (m a s).2.diags = s.diags) →
    ∃ new, Gathered g k D n (m a s).1 (subs ++ new) (m a s).2 ∧ Around k (m a s).2 D ∧
      (m a s).2.names = s.names ∧
      (p ∨ quiet → ((∀ sub ∈ new, sub.flow ≠ .broken) ↔ p))

/-- Where further branches are made, only those that are there are not finished. -/
theorem agrees_left_of_makes {s t u : Builder} {brs brs' : List Branch}
    (ha : Agrees g (blocksOf brs') s u) (hg : Builder.Grows ∅ t u)
    (hb : ∀ br ∈ brs', br ∈ brs ∨ ¬ t.func.Has br.block) : Agrees g (blocksOf brs) s t := by
  have h := ha.left hg (by simp)
  refine { h with finished := fun c hc ht hO => h.finished c hc ht ?_ }
  rintro ⟨br, hbr, rfl⟩
  rcases hb br hbr with hold | hnew
  · exact hO ⟨br, hold, rfl⟩
  · exact hnew ht

/-- Steps that only add branches. -/
def Gatherer (m : Arms → Build Arms) : Prop := ∀ a, Makes a.branches (m a) Arms.branches

section
variable {m m' : Arms → Build Arms} {p q : Prop}

theorem gathers_pure : Gathers g k quiet D pure True := by
  intro a s n subs h hs _ _ _
  exact ⟨[], by simpa using h, hs, rfl, by simp⟩

theorem Gathers.congr (h : Gathers g k quiet D m p) (hpq : p ↔ q) : Gathers g k quiet D m q := by
  rw [propext hpq] at h
  exact h

theorem Gathers.bind (hm : Gathers g k quiet D m p) (mm : Gatherer m)
    (hm' : Gathers g k quiet D m' q) (mm' : Gatherer m') :
    Gathers g k quiet D (fun a => m a >>= m') (p ∧ q) := by
  intro a s n subs h hs hc ha hd
  obtain ⟨hg₁, -⟩ := mm a s
  obtain ⟨hg₂, hb₂⟩ := mm' (m a s).1 (m a s).2
  simp only [bind_apply] at hc ha hd ⊢
  obtain ⟨new₁, h₁, hs₁, hn₁, hp⟩ := hm a s n subs h hs
    ((capturedRegs_mono hg₂.enclosing).trans hc) (agrees_left_of_makes ha hg₂ hb₂)
    fun hq => (hg₁.quiet hg₂ (hd hq)).1
  obtain ⟨new₂, h₂, hs₂, hn₂, hq⟩ := hm' _ _ n _ h₁ hs₁ hc (ha.right hg₁)
    fun hq => (hg₁.quiet hg₂ (hd hq)).2
  refine ⟨new₁ ++ new₂, by rwa [← List.append_assoc], hs₂, hn₂.trans hn₁, fun hpq => ?_⟩
  rw [← hp (hpq.imp And.left id), ← hq (hpq.imp And.right id)]
  simp only [List.mem_append, or_imp, forall_and]

theorem Gatherer.bind (mm : Gatherer m) (mm' : Gatherer m') : Gatherer fun a => m a >>= m' :=
  fun a => (mm a).bind mm'

end

theorem number_apply (pos : Position) (text : String) (s : Builder) :
    ∃ v ds, number pos text s = (v, { s with diags := s.diags ++ ds }) ∧ Ready ∅ v := by
  rcases h : numberValue? text with _ | v
  · exact ⟨.null, [⟨pos, .badNumber text⟩], by simp [number, h], trivial⟩
  · exact ⟨v, [], by simp [number, h], ready_of_numberValue? h⟩

/-- The patterns of arms are constants. -/
theorem pattern_apply (p : Node) (s : Builder) :
    ∃ v ds, pattern p s = (v, { s with diags := s.diags ++ ds }) ∧ Ready ∅ v := by
  unfold pattern
  split
  · exact number_apply _ _ s
  · rename_i v
    exact ⟨.string v, [], by simp, trivial⟩
  · rename_i name
    exact ⟨.string name, [], by simp, trivial⟩
  · exact ⟨.null, _, rfl, trivial⟩

theorem exists_of_forall₂ {α β : Type} {R : α → β → Prop} {as : List α} {bs : List β}
    (h : List.Forall₂ R as bs) {a : α} (ha : a ∈ as) : ∃ b ∈ bs, R a b := by
  induction h with
  | nil => cases ha
  | cons hr _ ih =>
    rcases List.mem_cons.mp ha with rfl | ha
    · exact ⟨_, List.mem_cons_self, hr⟩
    · obtain ⟨b, hb, hab⟩ := ih ha
      exact ⟨b, List.mem_cons_of_mem _ hb, hab⟩

theorem forall₂_imp_of_mem {α β : Type} {R T : α → β → Prop} {as : List α} {bs : List β}
    (h : List.Forall₂ R as bs) (hRT : ∀ a ∈ as, ∀ b, R a b → T a b) : List.Forall₂ T as bs := by
  induction h with
  | nil => exact .nil
  | cons hr _ ih =>
    exact .cons (hRT _ List.mem_cons_self _ hr)
      (ih fun a ha => hRT a (List.mem_cons_of_mem _ ha))

theorem optional_block {c : BlockId} (h : 0 ≤ c.index) : Instr.optional c = [⟨c, .nested⟩] := by
  have : c ≠ .none := by rintro rfl; exact absurd h (by decide)
  simp [Instr.optional, this]

section
variable {s t : Builder} {a : Arms} {subs : List Sub} {n : Nat}

theorem Gathered.congr (h : Gathered g k D n a subs s) (hf : t.func = s.func) :
    Gathered g k D n a subs t := by
  refine { h with opened := h.opened.imp fun br sub ho => ?_, chain := hf ▸ h.chain }
  obtain ⟨h₁, h₂, h₃, h₄, h₅, h₆, h₇⟩ := ho
  exact ⟨h₁, hf ▸ h₂, hf ▸ h₃, h₄, h₅, hf ▸ h₆, hf ▸ h₇⟩

/-- Of the blocks that are made with one more branch, its own is not finished. -/
theorem agrees_branch {brs brs' : List Branch} {own : String} {caught : Reg}
    {body : BlockId → Build (Option Reg)} (hold : ∀ br ∈ brs, s.func.Has br.block)
    (hbrs : brs' = brs ++ [(branch own caught body s).1])
    (ha : Agrees g (blocksOf brs') s (branch own caught body s).2) :
    Agrees g {⟨s.func.blocks.size⟩} s (branch own caught body s).2 := by
  have hblock : (branch own caught body s).1.block = ⟨s.func.blocks.size⟩ := rfl
  refine { ha with finished := fun c hcs hct hne => ha.finished c hcs hct ?_ }
  rintro ⟨br, hbr, rfl⟩
  rw [hbrs] at hbr
  rcases List.mem_append.mp hbr with hbr | hbr
  · exact hcs (hold br hbr)
  · rw [List.mem_singleton.mp hbr] at hne
    exact hne hblock

theorem gathered_branch (h : Gathered g k D n a subs s) (hs : Around k s D) (own : String)
    {caught : Reg} (hown : own ≠ "" → caught ∈ D) {body : BlockId → Build (Option Reg)}
    (ab : ∀ c, Adds {c} (body c))
    (hbody : ∀ c D₁ e₁, Lowers g ⟨k.closure, true⟩ quiet c D₁ e₁ (body c) f)
    (hc : capturedRegs (branch own caught body s).2.enclosing ⊆ D)
    (hd : quiet → (branch own caught body s).2.diags = s.diags) (a' : Arms)
    (hbrs : a'.branches = a.branches ++ [(branch own caught body s).1])
    (hrefs : a'.refs.Perm (a.refs ++ [⟨⟨s.func.blocks.size⟩, .nested⟩]))
    (hpat : ∀ arm ∈ a'.arms, Ready ∅ arm.pattern)
    (ha : Agrees g (blocksOf a'.branches) s (branch own caught body s).2) :
    ∃ new, Gathered g k D n a' (subs ++ new) (branch own caught body s).2 ∧
      Around k (branch own caught body s).2 D ∧
      (f ≠ .broken ∨ quiet → ((∀ sub ∈ new, sub.flow ≠ .broken) ↔ f ≠ .broken)) := by
  have ha' := agrees_branch (fun br hbr => by
    obtain ⟨sub, -, hopen⟩ := exists_of_forall₂ h.opened hbr
    exact hopen.has) hbrs ha
  obtain ⟨sub, hopen, hchain, hs', r, hf⟩ := open_branch own caught hown ab hbody hs hc ha' hd
  have hg : Builder.Grows ∅ s (branch own caught body s).2 := adds_branch own caught ab s
  refine ⟨[sub], ⟨?_, chain_append.mpr ⟨_, h.chain, hchain⟩, ?_, hpat⟩, hs', fun hfq => ?_⟩
  · rw [hbrs]
    exact List.rel_append (h.opened.imp fun _ _ ho => ho.grows hg (by simp))
      (.cons hopen .nil)
  · rw [hbrs, List.map_append]
    exact hrefs.trans (h.refs.append (.refl _))
  · simp [hf.exact rfl hfq]

end

theorem Arms.refs_addArm (a : Arms) (v : Value) (br : Branch) :
    (a.addArm v br).refs.Perm (a.refs ++ [⟨br.block, .nested⟩]) := by
  simp only [refs, addArm, List.map_append, List.map_cons, List.map_nil, List.append_assoc]
  exact List.Perm.append_left _ List.perm_append_comm

theorem Arms.refs_addDefault {a : Arms} (h : a.default = .none) (hbr : 0 ≤ br.block.index) :
    (a.addDefault br).refs = a.refs ++ [⟨br.block, .nested⟩] := by
  have hnone : Instr.optional BlockId.none = [] := rfl
  simp [refs, addDefault, h, hnone, optional_block hbr]

theorem forall_arms_addArm {a : Arms} {v : Value} (h : ∀ arm ∈ a.arms, Ready ∅ arm.pattern)
    (hv : Ready ∅ v) : ∀ arm ∈ (a.addArm v br).arms, Ready ∅ arm.pattern := by
  intro arm harm
  rcases List.mem_append.mp harm with harm | harm
  · exact h arm harm
  · rw [List.mem_singleton.mp harm]
    exact hv

section
variable {a : Arms} {body : BlockId → Build (Option Reg)} {own : String} {caught : Reg} {s : Builder}

theorem addDefault_apply (pos : Position) (c : Complaint) (h : a.default = .none) :
    addDefault pos c own caught a body s =
      (a.addDefault (branch own caught body s).1, (branch own caught body s).2) := by
  simp [addDefault, h]

theorem addDefault_apply_of_ne (pos : Position) (c : Complaint) (h : a.default ≠ .none) :
    addDefault pos c own caught a body s = (a, { s with diags := s.diags ++ [⟨pos, c⟩] }) := by
  simp [addDefault, h]

theorem addCase_apply (pos : Position) {p : Node} (hp : isDefault p = false) :
    ∃ v ds, Ready ∅ v ∧ pattern p s = (v, { s with diags := s.diags ++ ds }) ∧
      addCase pos a p body s =
        (a.addArm v (branch "" .none body { s with diags := s.diags ++ ds }).1,
          (branch "" .none body { s with diags := s.diags ++ ds }).2) := by
  obtain ⟨v, ds, hv, hready⟩ := pattern_apply p s
  exact ⟨v, ds, hready, hv, by simp [addCase, hp, hv]⟩

theorem addClause_apply (pos : Position) (name : String) {p : Node} (hp : p.isAbsent = false) :
    ∃ v ds, Ready ∅ v ∧ pattern p (branch name caught body s).2 =
        (v, { (branch name caught body s).2 with
          diags := (branch name caught body s).2.diags ++ ds }) ∧
      addClause pos caught a name p body s =
        (a.addArm v (branch name caught body s).1, { (branch name caught body s).2 with
          diags := (branch name caught body s).2.diags ++ ds }) := by
  obtain ⟨v, ds, hv, hready⟩ := pattern_apply p (branch name caught body s).2
  exact ⟨v, ds, hready, hv, by simp [addClause, hp, hv]⟩

end

section
variable {body : BlockId → Build (Option Reg)} (ab : ∀ c, Adds {c} (body c))
  (hbody : ∀ c D₁ e₁, Lowers g ⟨k.closure, true⟩ quiet c D₁ e₁ (body c) f)
include ab hbody

theorem gathers_addDefault (pos : Position) (c : Complaint) (own : String) (caught : Reg)
    (hown : own ≠ "" → caught ∈ D) :
    Gathers g k quiet D (addDefault pos c own caught · body) (f ≠ .broken) := by
  intro a s n subs h hs hc ha hd
  simp only at hc ha hd ⊢
  by_cases hnone : a.default = .none
  · rw [addDefault_apply pos c hnone] at hc ha hd ⊢
    obtain ⟨new, h', hs', hf⟩ := gathered_branch h hs own hown ab hbody hc hd
      (a.addDefault (branch own caught body s).1) rfl
      (by rw [Arms.refs_addDefault hnone (by simp [branch_apply])]; exact .refl _) h.patterns ha
    exact ⟨new, h', hs', rfl, hf⟩
  · rw [addDefault_apply_of_ne pos c hnone] at hc ha hd ⊢
    have hnq : ¬ quiet := fun hq => by simpa using hd hq
    refine ⟨[], ?_, ⟨hs.numRegs, hs.closure, hs.scope, hs.names⟩, rfl, fun hf => ?_⟩
    · rw [List.append_nil]
      exact h.congr rfl
    · simp [hf.resolve_right hnq]

theorem gathers_addCase (pos : Position) (p : Node) :
    Gathers g k quiet D (addCase pos · p body) (f ≠ .broken) := by
  by_cases hp : isDefault p
  · have := gathers_addDefault (D := D) ab hbody pos .unreachableDefault "" .none (absurd rfl)
    simpa [addCase, hp] using this
  · intro a s n subs h hs hc ha hd
    simp only at hc ha hd ⊢
    obtain ⟨v, ds, hready, hv, happ⟩ := @addCase_apply a body s pos p (by simpa using hp)
    rw [happ] at hc ha hd ⊢
    have hquiet := fun hq => ((hv ▸ adds_pattern (S := ∅) p s).quiet
      (adds_branch "" .none ab _) (hd hq)).2
    obtain ⟨new, h', hs', hf⟩ := gathered_branch (s := { s with diags := s.diags ++ ds })
      (h.congr rfl) ⟨hs.numRegs, hs.closure, hs.scope, hs.names⟩ "" (absurd rfl) ab hbody
      hc hquiet (a.addArm v _) rfl (Arms.refs_addArm a v _)
      (forall_arms_addArm h.patterns hready) (ha.congr rfl rfl)
    exact ⟨new, h', hs', rfl, hf⟩

theorem gathers_addClause (pos : Position) {caught : Reg} (hc : caught ∈ D) (name : String)
    (p : Node) : Gathers g k quiet D (addClause pos caught · name p body) (f ≠ .broken) := by
  by_cases hp : p.isAbsent
  · have := gathers_addDefault ab hbody pos .unreachableClause name caught (fun _ => hc)
    simpa [addClause, hp] using this
  · intro a s n subs h hs hc' ha hd
    simp only at hc' ha hd ⊢
    obtain ⟨v, ds, hready, hv, happ⟩ :=
      @addClause_apply a body caught s pos name p (by simpa using hp)
    rw [happ] at hc' ha hd ⊢
    have hquiet := fun hq => ((adds_branch name caught ab s).quiet
      (hv ▸ adds_pattern (S := ∅) p (branch name caught body s).2) (hd hq)).1
    obtain ⟨new, h', hs', hf⟩ := gathered_branch h hs name (fun _ => hc) ab hbody
      hc' hquiet (a.addArm v _) rfl (Arms.refs_addArm a v _)
      (forall_arms_addArm h.patterns hready) (ha.congr rfl rfl)
    exact ⟨new, h'.congr rfl, ⟨hs'.numRegs, hs'.closure, hs'.scope, hs'.names⟩, rfl, hf⟩

end

theorem gathers_addSeparate (pos : Position) {default : Option (BlockId → Build (Option Reg))}
    (ab : ∀ body ∈ default, ∀ c, Adds {c} (body c))
    (hbody : ∀ body ∈ default, ∀ c D₁ e₁,
      Lowers g ⟨k.closure, true⟩ quiet c D₁ e₁ (body c) f) (hnone : default = none → f ≠ .broken) :
    Gathers g k quiet D (addSeparate pos · default) (f ≠ .broken) := by
  cases default with
  | none => exact gathers_pure.congr (iff_of_true trivial (hnone rfl))
  | some body =>
    exact gathers_addDefault (ab body rfl) (hbody body rfl) pos _ "" .none (absurd rfl)

end ScriptMachine.Lowering
