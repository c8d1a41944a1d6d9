import ScriptMachine.Proofs.Lowering.ClosureShape
import ScriptMachine.Proofs.Lowering.Onward

/-!
# Steps that write before they read

Lowering takes registers in order and gives each of them its meaning once. A register is settled if no
code from here on writes it: it was taken before and is not the result of a short circuit that is under
way, or it is a capture, which only a call sets.

`Build.Orders` is the law of a step at the end of block `b`: if the code of a finished function can be
followed from where the step ends, it can be followed from where the step starts, and so can all blocks
that the step makes. The names at hand stand for settled registers throughout.
-/

namespace ScriptMachine

/-! ## Settled registers -/

/-- A register that is written no more, where the registers `C` are captured, those in `H` are results of
short circuits under way, and those from the number `n` on are not taken yet. -/
def Settled (C H : Set Reg) (n : Int) (r : Reg) : Prop := r ∈ C ∨ r.index < n ∧ r ∉ H

theorem Settled.mono {C H : Set Reg} {n m : Int} {r : Reg} (h : Settled C H n r) (hnm : n ≤ m) :
    Settled C H m r :=
  h.imp id fun h => ⟨lt_of_lt_of_le h.1 hnm, h.2⟩

/-- An operand that no code writes any more. -/
def SettledValue (C H : Set Reg) (n : Int) (v : Value) : Prop := ∀ r, v = .reg r → Settled C H n r

theorem SettledValue.mono {C H : Set Reg} {n m : Int} {v : Value} (h : SettledValue C H n v)
    (hnm : n ≤ m) : SettledValue C H m v :=
  fun r hr => (h r hr).mono hnm

@[simp] theorem settledValue_reg {C H : Set Reg} {n : Int} {r : Reg} :
    SettledValue C H n (.reg r) ↔ Settled C H n r := by
  simp [SettledValue]

theorem settledValue_of_not_reg {C H : Set Reg} {n : Int} {v : Value} (h : v.isReg = false) :
    SettledValue C H n v := by
  rintro r rfl
  cases h

theorem Ready.settledValue {C H : Set Reg} {n : Int} {v : Value} (h : Ready ∅ v) :
    SettledValue C H n v := by
  rintro r rfl
  exact absurd h (Set.notMem_empty r)

/-- Code may enter the blocks from the number `m` on, and write what is not settled at `n`. -/
def horizon (C H : Set Reg) (m n : Int) : Outlook := ⟨m, {r | ¬ Settled C H n r}⟩

theorem horizon_le {C H : Set Reg} {m m' n n' : Int} (hm : m ≤ m') (hn : n ≤ n') :
    horizon C H m' n' ≤ horizon C H m n :=
  ⟨hm, fun _ hr hs => hr (hs.mono hn)⟩

/-- What the code from a state on may still do. -/
def outlook (C H : Set Reg) (s : Builder) : Outlook := horizon C H s.func.blocks.size s.func.numRegs

section
variable {C H : Set Reg} {S : Set BlockId} {s t : Builder}

theorem outlook_le_of_le (hsize : s.func.blocks.size ≤ t.func.blocks.size)
    (hnum : s.func.numRegs ≤ t.func.numRegs) : outlook C H t ≤ outlook C H s :=
  horizon_le (by exact_mod_cast hsize) hnum

theorem lt_outlook_newBlock (C H : Set Reg) (s : Builder) :
    (s.func.blocks.size : Int) < (outlook C H (Build.newBlock s).2).blocks := by
  show (s.func.blocks.size : Int) < ((s.func.newBlock.1.blocks.size : Nat) : Int)
  rw [Func.newBlock_size]
  omega

theorem Builder.Grows.outlook_le (h : Builder.Grows S s t) : outlook C H t ≤ outlook C H s :=
  outlook_le_of_le h.func.size h.func.numRegs

end

/-! ## States -/

/-- What holds of a state between two steps. -/
structure Kept (C H : Set Reg) (s : Builder) : Prop where
  numRegs : 0 ≤ s.func.numRegs
  scope : ScopeOk s.func.numRegs s.enclosing
  hidden : ∀ r ∈ H, r.index < s.func.numRegs
  names : ∀ p ∈ s.names, Settled C H s.func.numRegs p.2

/-- The registers `C` are those that the innermost closure captures, as far as they are taken. -/
def Captures (C : Set Reg) (t : Builder) : Prop :=
  ∀ r : Reg, r.index < t.func.numRegs → (r ∈ C ↔ r ∈ capturedRegs t.enclosing)

section
variable {C H : Set Reg} {S : Set BlockId} {s t : Builder}

theorem lt_of_mem_capturedRegs {n : Int} {es : List Enclosure} (h : ScopeOk n es) {r : Reg}
    (hr : r ∈ capturedRegs es) : r.index < n := by
  cases es with
  | nil => cases hr
  | cons e es =>
    obtain ⟨c, hc, rfl⟩ := hr
    exact (h.2.1 c hc).1.2

/-- A capture of a later state that is in a register taken before was made before. -/
theorem mem_capturedRegs_of_grow {n : Int} {es es' : List Enclosure} (h : Enclosing.Grow n es es')
    {r : Reg} (hr : r ∈ capturedRegs es') (hn : r.index < n) : r ∈ capturedRegs es := by
  cases h with
  | nil => exact hr
  | cons he _ =>
    obtain ⟨c, hc, rfl⟩ := hr
    rcases he.fresh c hc with hc | hge
    · exact ⟨c, hc, rfl⟩
    · omega

theorem Captures.left (h : Captures C t) (hg : Builder.Grows S s t) : Captures C s := by
  intro r hr
  rw [h r (lt_of_lt_of_le hr hg.func.numRegs)]
  exact ⟨fun hc => mem_capturedRegs_of_grow hg.enclosing hc hr,
    fun hc => capturedRegs_mono hg.enclosing hc⟩

theorem Captures.congr (h : Captures C t) (hf : s.func.numRegs = t.func.numRegs)
    (he : s.enclosing = t.enclosing) : Captures C s := by
  intro r hr
  rw [he]
  exact h r (hf ▸ hr)

theorem Captures.settled (h : Captures C s) (hs : ScopeOk s.func.numRegs s.enclosing) {r : Reg}
    (hr : r ∈ capturedRegs s.enclosing) (n : Int) : Settled C H n r :=
  .inl ((h r (lt_of_mem_capturedRegs hs hr)).mpr hr)

section
variable (hs : Kept C H s)
include hs

theorem Kept.fresh (hg : Builder.Grows S (Build.newReg s).2 t)
    (hc : Captures C t) : ⟨s.func.numRegs⟩ ∉ C := by
  have hlt : s.func.numRegs < (Build.newReg s).2.func.numRegs := Int.lt_succ s.func.numRegs
  intro hmem
  have hcap := ((hc.left hg) ⟨s.func.numRegs⟩ hlt).mp hmem
  exact absurd (lt_of_mem_capturedRegs hs.scope hcap) (lt_irrefl _)

theorem Kept.open_fresh (hg : Builder.Grows S (Build.newReg s).2 t)
    (hc : Captures C t) {n : Int} (hn : n ≤ s.func.numRegs) : ¬ Settled C H n ⟨s.func.numRegs⟩ := by
  rintro (h | h)
  · exact hs.fresh hg hc h
  · exact absurd h.1 (not_lt.mpr hn)

theorem Kept.settled_fresh {n : Int} (hn : s.func.numRegs < n) : Settled C H n ⟨s.func.numRegs⟩ :=
  .inr ⟨hn, fun h => absurd (hs.hidden _ h) (lt_irrefl _)⟩

theorem Kept.newReg : Kept C H (Build.newReg s).2 := by
  have hle : s.func.numRegs ≤ (Build.newReg s).2.func.numRegs :=
    (Func.extends_newReg s.func).numRegs
  exact ⟨le_trans hs.numRegs hle, hs.scope.mono hle, fun r hr => lt_of_lt_of_le (hs.hidden r hr) hle,
    fun p hp => (hs.names p hp).mono hle⟩

theorem Kept.congr (hf : t.func.numRegs = s.func.numRegs)
    (hn : t.names = s.names) (he : t.enclosing = s.enclosing) : Kept C H t :=
  ⟨hf ▸ hs.numRegs, by rw [hf, he]; exact hs.scope, hf ▸ hs.hidden, by rw [hf, hn]; exact hs.names⟩

theorem Kept.lookup (name : String)
    (hc : Captures C (Build.lookup name s).2) : Kept C H (Build.lookup name s).2 ∧
      ∀ r, (Build.lookup name s).1 = some r → ∀ n, (∀ p ∈ s.names, Settled C H n p.2) →
        Settled C H n r := by
  obtain ⟨hf, -, -⟩ := resolve_grows name s.func s.names s.enclosing
  obtain ⟨hok, hvis⟩ := resolve_scope name hs.numRegs s.names hs.scope
  rw [Build.lookup_apply] at hc ⊢
  refine ⟨⟨le_trans hs.numRegs hf.numRegs, hok, fun r hr => lt_of_lt_of_le (hs.hidden r hr) hf.numRegs,
    fun p hp => (hs.names p hp).mono hf.numRegs⟩, fun r hr n hn => ?_⟩
  rcases hvis r hr with ⟨p, hp, rfl⟩ | hcap
  · exact hn p hp
  · exact hc.settled hok hcap n

end

end

/-! ## The law -/

/-- The finished function `g` can be followed through what was added between `s` and `t`. -/
structure Laid (g : Func) (C H : Set Reg) (b : BlockId) (s t : Builder) : Prop where
  onward : ∀ z, Onward g z b (t.func.code b).length (outlook C H t) →
    Onward g z b (s.func.code b).length (outlook C H s)
  planned : ∀ c, ¬ s.func.Has c → t.func.Has c → g.Planned c
  kept : Kept C H t

namespace Build

variable {α β : Type} {g : Func} {C H : Set Reg} {b : BlockId} {n : Int}

/-- The law of a step in states that have taken `n` registers or more; `Q` holds of its result and the
number of registers behind it. -/
def Orders (g : Func) (C H : Set Reg) (b : BlockId) (n : Int) (m : Build α)
    (Q : α → Int → Prop) : Prop :=
  ∀ s, n ≤ s.func.numRegs → Kept C H s → s.func.Has b → Captures C (m s).2 → Agrees g ∅ s (m s).2 →
    Laid g C H b s (m s).2 ∧ Q (m s).1 (m s).2.func.numRegs

section
variable {m : Build α} {Q Q' : α → Int → Prop} {x : Reg → Instr}

theorem Orders.mono {n' : Int} (h : Orders g C H b n m Q) (hn : n ≤ n') : Orders g C H b n' m Q :=
  fun s hs => h s (le_trans hn hs)

theorem Orders.bind {f : α → Build β} {R : β → Int → Prop} (ha : Adds {b} m ∧ ∀ a, Adds {b} (f a))
    (hm : Orders g C H b n m Q) (hf : ∀ a n', n ≤ n' → Q a n' → Orders g C H b n' (f a) R) :
    Orders g C H b n (m >>= f) R := by
  obtain ⟨am, af⟩ := ha
  intro s hn hs hb hc ha
  have hg₁ := am s
  have hg₂ := af (m s).1 (m s).2
  rw [bind_apply] at hc ha ⊢
  obtain ⟨h₁, hQ⟩ := hm s hn hs hb (hc.left hg₂) (ha.left hg₂ fun c hcb => .inl (hcb ▸ hb))
  obtain ⟨h₂, hR⟩ := hf _ _ (le_trans hn hg₁.func.numRegs) hQ (m s).2 (le_refl _) h₁.kept
    (hg₁.func.has hb) hc (ha.right hg₁)
  refine ⟨⟨fun z hz => h₁.onward z (h₂.onward z hz), fun c hs ht => ?_, h₂.kept⟩, hR⟩
  by_cases hmid : (m s).2.func.Has c
  · exact h₁.planned c hs hmid
  · exact h₂.planned c hmid ht

theorem Orders.of_still (am : Adds {b} m)
    (h : ∀ s, n ≤ s.func.numRegs → Kept C H s → Captures C (m s).2 →
      (m s).2.func.blocks = s.func.blocks ∧ Kept C H (m s).2 ∧ Q (m s).1 (m s).2.func.numRegs) :
    Orders g C H b n m Q := by
  intro s hn hs hb hc ha
  obtain ⟨hblocks, hs', hq⟩ := h s hn hs hc
  refine ⟨⟨fun z hz => ?_, fun c hc' ht => absurd ?_ hc', hs'⟩, hq⟩
  · rw [Func.code_congr hblocks] at hz
    exact .narrow (am s).outlook_le hz
  · exact ⟨ht.1, by rw [← hblocks]; exact ht.2⟩

/-! ## Steps without code -/

theorem orders_pure {a : α} (h : ∀ n', n ≤ n' → Q a n') : Orders g C H b n (pure a) Q :=
  .of_still (by grind) fun _ hn hs _ => ⟨rfl, hs, h _ hn⟩

theorem orders_newReg : Orders g C H b n newReg fun r n' => Settled C H n' r :=
  .of_still (by grind) fun s _ hs _ => ⟨rfl, hs.newReg, hs.settled_fresh (Int.lt_succ s.func.numRegs)⟩

theorem orders_terminated : Orders g C H b n (terminated b) fun _ _ => True :=
  .of_still (by grind) fun s _ hs _ => by
    rw [terminated_apply]
    exact ⟨rfl, hs, trivial⟩

theorem orders_inClosure : Orders g C H b n inClosure fun _ _ => True :=
  .of_still (by grind) fun _ _ hs _ => ⟨rfl, hs, trivial⟩

theorem orders_complain (pos : Position) (c : Complaint) :
    Orders g C H b n (complain pos c) fun _ _ => True :=
  .of_still (by grind) fun _ _ hs _ => ⟨rfl, hs.congr rfl rfl rfl, trivial⟩

theorem orders_function (f : Func) {m : Build Unit} {S : Set BlockId} (am : Adds S m) :
    Orders g C H b n (function f m) fun _ _ => True :=
  .of_still (by grind) fun _ _ hs _ => ⟨rfl, hs.congr rfl rfl rfl, trivial⟩

theorem orders_bind_name (name : String) {r : Reg} (hr : Settled C H n r) :
    Orders g C H b n (Build.bind name r) fun _ _ => True := by
  refine .of_still (by grind) fun s hn hs _ => ⟨rfl, ?_, trivial⟩
  refine { hs with names := fun p hp => ?_ }
  rcases Names.mem_bind hp with rfl | hp
  · exact hr.mono hn
  · exact hs.names p hp

theorem orders_lookup (name : String) :
    Orders g C H b n (lookup name) fun r n' => ∀ q, r = some q → Settled C H n' q := by
  refine .of_still (by grind) fun s _ hs hc => ?_
  obtain ⟨hs', hr⟩ := hs.lookup name hc
  exact ⟨(resolve_grows name s.func s.names s.enclosing).2.1, hs',
    fun q hq => hr q hq _ fun p hp => hs'.names p hp⟩

/-! ## Steps that append -/

/-- The instruction that was appended is there in the end. -/
theorem getElem?_of_produce {s : Builder} {O : Set BlockId} (hb : s.func.Has b)
    (ha : Agrees g O s (produce b x s).2) :
    (g.code b)[(s.func.code b).length]? = some (x ⟨s.func.numRegs⟩) := by
  refine ha.code b _ _ (le_refl _) ?_
  rw [Lowering.produce_code hb]
  exact List.getElem?_concat_length

theorem kept_produce {s : Builder} (hs : Kept C H s) : Kept C H (produce b x s).2 :=
  hs.newReg.congr (by simp [Lowering.produce_apply]) rfl rfl

/-- An instruction that goes on, with a new register for its result. -/
theorem orders_produce (hs : ∀ r, (x r).Straight) (ho : ∀ r, (x r).out = r)
    (hin : ∀ r, ∀ v ∈ (x r).ins, SettledValue C H n v) :
    Orders g C H b n (produce b x) fun r n' => SettledValue C H n' (operand r) := by
  intro s hn hk hb hc ha
  have hx := getElem?_of_produce hb ha
  have hcode := @Lowering.produce_code b s x hb
  have hnum : (produce b x s).2.func.numRegs = s.func.numRegs + 1 := by simp [Lowering.produce_apply]
  have hg := adds_produce (Set.mem_singleton b) x s
  have hnew : Builder.Grows {b} (newReg s).2 (produce b x s).2 :=
    adds_emit b _ (Set.mem_singleton b) _
  refine ⟨⟨fun z hz => ?_, fun c hold hnow => ?_, kept_produce hk⟩, ?_⟩
  · rw [hcode, List.length_append, List.length_singleton] at hz
    refine .straight hx (hs _) (fun r hr => not_not_intro (((hin _ _ hr).mono hn) r rfl)) ?_
      (.narrow hg.outlook_le hz)
    rw [ho]
    exact hk.open_fresh hnew hc (le_refl _)
  · exact absurd (by simpa [Lowering.produce_apply] using hnow) hold
  · rw [hnum]
    exact settledValue_reg.mpr (hk.settled_fresh (by omega))

theorem orders_load {v : Value} (hv : SettledValue C H n v) :
    Orders g C H b n (load b v) fun r n' => Settled C H n' r := by
  intro s hn hk hb hc ha
  have hp := orders_produce (x := (.load · v)) (g := g) (b := b) (fun _ => trivial) (fun _ => rfl)
    (by simpa [Instr.ins] using fun _ : Reg => hv) s hn hk hb hc ha
  exact ⟨hp.1, settledValue_reg.mp hp.2⟩

theorem orders_orNull {r : Option Reg} (hr : SettledValue C H n (operand r)) :
    Orders g C H b n (orNull b r) fun q n' => Settled C H n' q := by
  cases r with
  | some r => exact orders_pure fun n' hn => (settledValue_reg.mp hr).mono hn
  | none => exact orders_load (settledValue_of_not_reg rfl)

theorem orders_emit_leave (how : Terminator) {v : Value} (hv : SettledValue C H n v) :
    Orders g C H b n (emit b (.leave how v)) fun _ _ => True := by
  intro s hn hk hb hc ha
  have hx := getElem?_of_agrees_emit hb ha
  have hg := adds_emit b (.leave how v) (Set.mem_singleton b) s
  refine ⟨⟨fun z hz => ?_, fun c hold hnow => ?_, hk.congr (by simp) rfl rfl⟩, trivial⟩
  · exact .leave hx (fun r hr => not_not_intro ((hv r hr).mono hn))
      (Outlook.le_trans hz.le hg.outlook_le)
  · exact absurd (by simpa using hnow) hold

end

end Build

end ScriptMachine
