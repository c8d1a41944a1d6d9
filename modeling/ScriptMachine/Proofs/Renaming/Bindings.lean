import ScriptMachine.Proofs.Lowering.NodeShape
import ScriptMachine.Proofs.Renaming.Scopes

/-!
# Names that lowering binds

The names that a tree binds according to `Node.binds` are at hand behind its code (`leaves_node`).

`Leaves` is what lowering leaves behind in a block that control reaches the end of: no name is lost, the
names of the tree are bound, and if control gets through the tree, it reaches the end of the block again.
A name that a branch binds is joined behind it if control reaches the end of the branch (`Offers`).
-/

namespace ScriptMachine

open Build Lowering

/-! ## Names that can be looked up -/

/-- A name that stands for something: at hand, among what the innermost closure captured, or outside. -/
def Sees (name : String) (names : Names) : List Enclosure → Prop
  | [] => (names.get? name).isSome
  | e :: es => (names.get? name).isSome ∨ (e.bound.get? name).isSome ∨ Sees name e.outer es

variable {name : String}

theorem isSome_resolve {names : Names} {es : List Enclosure}
    (h : Sees name names es) (f : Func) : (resolve name f names es).1.isSome := by
  induction es generalizing names with
  | nil => exact h
  | cons e es ih =>
    unfold resolve
    cases hhere : (names.get? name).or (e.bound.get? name) with
    | some r => rfl
    | none =>
      rw [Option.or_eq_none_iff] at hhere
      have houter : Sees name e.outer es := by
        simpa only [Sees, hhere.1, hhere.2, Option.isSome_none, Bool.false_eq_true, false_or] using h
      have hsome := ih houter
      rcases hr : resolve name f e.outer es with ⟨_ | o, f', es'⟩
      · rw [hr] at hsome
        cases hsome
      · rfl

/-- All names that one table has, another one has too. -/
def Names.Within (ns ms : Names) : Prop := ∀ name, (ns.get? name).isSome → (ms.get? name).isSome

theorem Names.Within.refl (ns : Names) : ns.Within ns := fun _ => id

theorem Names.Within.trans {ns ms ks : Names} (h₁ : ns.Within ms) (h₂ : ms.Within ks) :
    ns.Within ks := fun name h => h₂ name (h₁ name h)

theorem Names.within_bind (ns : Names) (name : String) (r : Reg) : ns.Within (ns.bind name r) := by
  intro other h
  rw [get?_bind]
  split
  · rfl
  · exact h

theorem Sees.mono {names names' : Names} (hn : names.Within names') {n : Int}
    {es es' : List Enclosure} (he : Enclosing.Grow n es es') (h : Sees name names es) :
    Sees name names' es' := by
  induction he generalizing names names' with
  | nil => exact hn name h
  | @cons e e' es es' he _ ih =>
    rcases h with h | h | h
    · exact .inl (hn name h)
    · exact .inr (.inl (he.bound name h))
    · exact .inr (.inr (ih (he.outer ▸ Names.Within.refl _) h))

/-- All names of a scope stand for something. -/
def Knows (S : List String) (s : Builder) : Prop := ∀ name ∈ S, Sees name s.names s.enclosing

theorem sees_of_isSome {names : Names} (h : (names.get? name).isSome)
    (es : List Enclosure) : Sees name names es := by
  cases es with
  | nil => exact h
  | cons e es => exact .inl h

namespace Knows

variable {S T : List String} {s t : Builder} {B : Set BlockId}

theorem grow (h : Knows S s) (hg : Builder.Grows B s t) (hn : s.names.Within t.names) : Knows S t :=
  fun name hname => (h name hname).mono hn hg.enclosing

theorem append (h : Knows S s) (hT : ∀ name ∈ T, (s.names.get? name).isSome) : Knows (S ++ T) s := by
  intro name hname
  rcases List.mem_append.mp hname with hS | hT'
  · exact h name hS
  · exact sees_of_isSome (hT name hT') _

end Knows

/-! ## What lowering leaves behind -/

/-- Control reaches the end of a block. -/
structure Builder.OpenAt (s : Builder) (b : BlockId) : Prop where
  has : s.func.Has b
  unended : endsBlock (s.func.code b) = false

/-- Behind the code of a tree with the flow `f`, from `s` to `t`, which binds the names `ns` and has a
value in `r` if `v`. -/
structure Leaves (b : BlockId) (f : Flow) (ns : List String) (v : Bool) (s : Builder) (r : Option Reg)
    (t : Builder) : Prop where
  within : s.names.Within t.names
  open_at : f = .live → t.OpenAt b
  names : ∀ name ∈ ns, (t.names.get? name).isSome
  value : f = .live → v = true → r.isSome

section
variable {b c : BlockId} {s t u : Builder} {f : Flow} {ns ms : List String} {v w : Bool}
  {r q : Option Reg} {S : Set BlockId} {x : Reg → Instr}

theorem Builder.OpenAt.grow (h : s.OpenAt c) (hg : Builder.Grows S s t) (hc : c ∉ S) : t.OpenAt c where
  has := hg.func.has h.has
  unended := by rw [hg.func.kept c h.has hc, h.unended]

/-- Steps that leave the code of a block as it is. -/
theorem Builder.OpenAt.congr (h : s.OpenAt b) (ht : t.func.blocks = s.func.blocks) : t.OpenAt b where
  has := by
    have := h.has
    unfold Func.Has at this ⊢
    rwa [ht]
  unended := by rw [Func.code_congr ht, h.unended]

theorem openAt_newBlock (s : Builder) : (newBlock s).2.OpenAt ⟨s.func.blocks.size⟩ where
  has := s.func.newBlock_has_self
  unended := by
    show endsBlock (s.func.newBlock.1.code _) = false
    rw [Func.newBlock_code, Func.code_size]
    rfl

theorem openAt_emit (h : s.func.Has b) {x : Instr} (hx : x.isTerminator = false) :
    (emit b x s).2.OpenAt b where
  has := (Func.append_has s.func b b x).mpr h
  unended := by rw [emit_apply, Func.append_code_self h, endsBlock_append, hx]

theorem openAt_produce (h : s.func.Has b) (hx : ∀ d, (x d).isTerminator = false) :
    (produce b x s).2.OpenAt b :=
  openAt_emit (s := (newReg s).2) h (hx _)

namespace Leaves

theorem refl (h : s.OpenAt b) (hr : v = true → r.isSome) : Leaves b .live [] v s r s :=
  ⟨.refl _, fun _ => h, by simp, fun _ => hr⟩

/-- More code behind code that control gets through. -/
theorem trans (h₁ : Leaves b .live ns v s r t) (h₂ : Leaves b f ms w t q u) :
    Leaves b f (ns ++ ms) w s q u where
  within := h₁.within.trans h₂.within
  open_at := h₂.open_at
  names name hname := by
    rcases List.mem_append.mp hname with h | h
    · exact h₂.within name (h₁.names name h)
    · exact h₂.names name h
  value := h₂.value

theorem mono (h : Leaves b f ns v s r t) (hms : ms ⊆ ns) (hw : w = true → v = true) :
    Leaves b f ms w s r t :=
  { h with names := fun name hname => h.names name (hms hname), value := fun hf hv => h.value hf (hw hv) }

/-- Where code starts matters only for the names. -/
theorem from_names (h : Leaves b f ns v s r t) (hu : u.names = s.names) : Leaves b f ns v u r t :=
  { h with within := hu ▸ h.within }

theorem of_live (h : Leaves b f ns v s r t) (hf : f = .live) : Leaves b .live ns v s r t := hf ▸ h

end Leaves

theorem leaves_produce (h : s.func.Has b) (hx : ∀ d, (x d).isTerminator = false) :
    Leaves b .live [] true s (produce b x s).1 (produce b x s).2 :=
  ⟨.refl _, fun _ => openAt_produce h hx, by simp, fun _ _ => rfl⟩

/-- An instruction behind code that control gets through. -/
theorem Leaves.produce (h : Leaves b .live ns v s r t) (hx : ∀ d, (x d).isTerminator = false) :
    Leaves b .live ns true s (Build.produce b x t).1 (Build.produce b x t).2 :=
  (h.trans (leaves_produce (h.open_at rfl).has hx)).mono (List.subset_append_left ns []) id

theorem leaves_constant (h : s.func.Has b) (val : Value) :
    Leaves b .live [] true s (constant b val s).1 (constant b val s).2 :=
  leaves_produce h (x := (.load · val)) fun _ => rfl

theorem leaves_degrade (h : s.func.Has b) (pos : Position) (c : Complaint) :
    Leaves b .live [] true s (degrade b pos c s).1 (degrade b pos c s).2 :=
  (leaves_constant (s := (complain pos c s).2) h .null).from_names rfl

theorem openAt_lookup (h : s.OpenAt b) (name : String) : (lookup name s).2.OpenAt b :=
  h.congr (resolve_grows name s.func s.names s.enclosing).2.1

theorem leaves_word (h : s.OpenAt b) (name : String) :
    Leaves b .live [] true s (word b name s).1 (word b name s).2 := by
  have hl := openAt_lookup h name
  rw [word, bind_apply]
  cases hr : (lookup name s).1 with
  | some r => exact ⟨.refl _, fun _ => hl, by simp, fun _ _ => rfl⟩
  | none =>
    exact (leaves_constant hl.has (.string name)).from_names rfl

/-! ## Values -/

theorem leaves_assign (pos : Position) (name : String) {x : Node} {value : Build (Option Reg)}
    (hx : x.flow = .live) (hv : Leaves b x.flow x.binds x.yields s (value s).1 (value s).2) :
    Leaves b (Node.assign pos name x).flow (Node.assign pos name x).binds true s
      (assign b name value s).1 (assign b name value s).2 := by
  have hv := hv.of_live hx
  rw [assign, bind_apply, bind_apply]
  -- a value that is missing is loaded
  have hor : Leaves b .live [] true (value s).2 (some (orNull b (value s).1 (value s).2).1)
      (orNull b (value s).1 (value s).2).2 := by
    cases (value s).1 with
    | some r => exact .refl (hv.open_at rfl) fun _ => rfl
    | none => exact leaves_constant (hv.open_at rfl).has .null
  have h := hv.trans hor
  refine ⟨h.within.trans (Names.within_bind _ name _), fun _ => (h.open_at rfl).congr rfl, ?_,
    fun _ _ => rfl⟩
  intro other hother
  show ((Names.bind _ name _).get? other).isSome
  rw [Names.get?_bind]
  rcases List.mem_cons.mp hother with rfl | hother
  · rw [if_pos rfl]
    rfl
  · split
    · rfl
    · exact h.names other (List.mem_append_left [] hother)

variable {args : Build (List Value)} {name : String}

theorem leaves_issue (name : String) (words : List String)
    (ha : Leaves b .live ns w s none (args s).2) :
    Leaves b .live ns true s (issue b name words args s).1 (issue b name words args s).2 :=
  ha.produce (x := (.command · name (words.map Value.string ++ (args s).1))) fun _ => rfl

theorem leaves_command (hs : s.OpenAt b) (pos : Position) (name line : String)
    (ha : Leaves b .live ns w s none (args s).2) :
    Leaves b .live (if readsArgs line then ns else []) true s (command b pos name line args s).1
      (command b pos name line args s).2 := by
  have hissue (name : String) (words : List String) :
      Leaves b .live (if readsArgs line then ns else []) true s (issue b name words args s).1
        (issue b name words args s).2 :=
    (leaves_issue name words ha).mono (by split <;> simp) id
  have hdegrade (e : Option Words.Problem) (h : readsArgs line = false) :
      Leaves b .live (if readsArgs line then ns else []) true s
        (degrade b pos (.badCommandLine line e) s).1 (degrade b pos (.badCommandLine line e) s).2 :=
    (leaves_degrade hs.has pos (.badCommandLine line e)).mono (by simp [h]) id
  unfold command
  by_cases hline : line = ""
  · rw [if_pos hline]
    exact hissue name []
  rw [if_neg hline]
  cases hwords : Words.split line with
  | error e => exact hdegrade (some e) (by simp [readsArgs, hline, hwords])
  | ok ws =>
    cases ws with
    | nil => exact hdegrade none (by simp [readsArgs, hline, hwords])
    | cons word words =>
      by_cases hname : name = ""
      · simp only [if_pos hname]
        exact hissue word words
      · simp only [if_neg hname]
        exact hissue name (word :: words)

theorem leaves_callHeld (callee : Reg) (ha : Leaves b .live ns w s none (args s).2) :
    Leaves b .live ns true s (callHeld b callee args s).1 (callHeld b callee args s).2 :=
  ha.produce (x := (.closureCall · callee (args s).1)) fun _ => rfl

theorem leaves_callNamed (name : String) (ha : Leaves b .live ns w s none (args s).2) :
    Leaves b .live ns true s (callNamed b name args s).1 (callNamed b name args s).2 :=
  ha.produce (x := (.call · name (args s).1)) fun _ => rfl

/-- What is called if it is no word: the value of the callee. -/
theorem call_of_ne_word {callee : Node} (h : ∀ p name, callee ≠ .word p name) (pos : Position)
    (value : Build (Option Reg)) (args : Build (List Value)) :
    call b pos callee value args = value >>= fun r => match r with
      | some r => callHeld b r args
      | none => degrade b pos (.calleeWithoutValue callee.typeName) := by
  cases callee with
  | word p name => exact absurd rfl (h p name)
  | _ => rfl

theorem leaves_call (hs : s.OpenAt b) (pos : Position) {callee : Node} (hlive : callee.flow = .live)
    {value : Build (Option Reg)}
    (hv : Leaves b callee.flow callee.binds callee.yields s (value s).1 (value s).2)
    (ha : ∀ u, u.OpenAt b → Leaves b .live ns w u none (args u).2) :
    Leaves b .live (callee.binds ++ if callee.yields then ns else []) true s
      (call b pos callee value args s).1 (call b pos callee value args s).2 := by
  by_cases hword : ∃ p name, callee = .word p name
  · obtain ⟨p, name, rfl⟩ := hword
    have hl := openAt_lookup hs name
    show Leaves b .live ns true s _ _
    rw [call, bind_apply]
    cases hr : (lookup name s).1 with
    | some r => exact (leaves_callHeld r (ha _ hl)).from_names rfl
    | none => exact (leaves_callNamed name (ha _ hl)).from_names rfl
  · rw [call_of_ne_word fun p name h => hword ⟨p, name, h⟩, bind_apply]
    have hv := hv.of_live hlive
    have hopen := hv.open_at rfl
    cases hr : (value s).1 with
    | some r => exact (hv.trans (leaves_callHeld r (ha _ hopen))).mono (by split <;> simp) id
    | none =>
      have hnone : callee.yields = false := by
        by_contra hy
        have := hv.value rfl (by simpa using hy)
        simp [hr] at this
      rw [hnone]
      exact hv.trans (leaves_degrade hopen.has pos (.calleeWithoutValue callee.typeName))

/-- Behind a short circuit no name of its right operand is seen. -/
theorem leaves_circuit {right : Build (Option Reg)} (ar : Adds {b} right) (hs : s.OpenAt b)
    (kind : Circuit) (left : Option Reg) (hr : ∀ u, u.OpenAt b → (right u).2.OpenAt b) :
    Leaves b .live [] true s (circuit b kind left right s).1 (circuit b kind left right s).2 := by
  have hstart : (circuitStart b kind left s).OpenAt b :=
    openAt_emit (s := (newReg s).2) (x := .circuit kind ⟨s.func.numRegs⟩ (operand left) .null 0)
      hs.has rfl
  have hright := hr _ hstart
  have hend : endsBlock ((circuitEnd b kind left right s).func.code b) = false := by
    rw [circuitEnd_code ar hs.has]
    cases (right (circuitStart b kind left s)).1 with
    | some r => exact endsBlock_append _ _
    | none =>
      rw [landing, List.append_nil]
      exact hright.unended
  rw [circuit_apply]
  refine ⟨?_, fun _ => ⟨?_, ?_⟩, by simp, fun _ _ => rfl⟩
  · show s.names.Within (circuitEnd b kind left right s).names
    rw [circuitEnd_fields.2.2.1]
    exact .refl _
  · rw [Func.replace_has]
    exact (grows_circuitEnd (Set.mem_singleton b) kind left ar s).func.has hs.has
  · rw [Func.replace_code_self]
    exact endsBlock_set rfl hend

theorem leaves_binary {left right : Build (Option Reg)} (ar : Adds {b} right) (pos : Position)
    (op : String) (hl : Leaves b .live ns v s (left s).1 (left s).2)
    (hr : ∀ u, u.OpenAt b → Leaves b .live ms w u (right u).1 (right u).2) :
    Leaves b .live (ns ++ if evaluatesRight op then ms else []) true s
      (binary b pos op left right s).1 (binary b pos op left right s).2 := by
  have hopen := hl.open_at rfl
  rw [binary, bind_apply]
  cases hc : circuit? op with
  | some kind =>
    have hcircuit := leaves_circuit ar hopen kind (left s).1 fun u hu => (hr u hu).open_at rfl
    exact (hl.trans hcircuit).mono (by simp [evaluatesRight, hc]) id
  | none =>
    cases ho : operator? op with
    | none =>
      have hd := leaves_degrade hopen.has pos (.unsupportedOperator op)
      exact (hl.trans hd).mono (by simp [evaluatesRight, ho]) id
    | some instr =>
      have hright := hr _ hopen
      have hplain d := (operator?_spec ho d (operand (left s).1) (operand (right (left s).2).1)).1
      have hp := (hl.trans hright).produce fun d => (hplain d).not_terminator
      exact hp.mono (by simp [evaluatesRight, hc, ho]) id

/-! ## Closures and functions -/

theorem leaves_closure {body : BlockId → Build (Option Reg)} (ab : ∀ c, Adds {c} (body c))
    (hs : s.func.Has b) (pos : Position) (params captures : List String) :
    Leaves b .live [] true s (closure b pos params captures body s).1
      (closure b pos params captures body s).2 := by
  have abody := adds_closureBody (Set.mem_singleton (⟨s.func.blocks.size⟩ : BlockId)) pos params captures
    (ab ⟨s.func.blocks.size⟩)
  obtain ⟨e, es, -, -, -, heq⟩ := enclosed_apply abody (newBlock s).2
  have hhas := (adds_enclosed abody (newBlock s).2).func.has ((Func.extends_newBlock s.func).has hs)
  rw [Lowering.closure, bind_apply, bind_apply]
  simp only [newBlock_apply] at heq hhas ⊢
  rw [heq] at hhas ⊢
  exact (leaves_produce hhas fun _ => rfl).from_names rfl

theorem leaves_function (hs : s.OpenAt b) (pos : Position) (name : String) (params : List String)
    (body : BlockId → Build (Option Reg)) :
    Leaves b .live [] false s none (function pos name params body s).2 := by
  unfold Lowering.function
  split
  · exact ⟨.refl _, fun _ => hs.congr rfl, by simp, by simp⟩
  · exact ⟨.refl _, fun _ => hs.congr rfl, by simp, by simp⟩

/-! ## Branches -/

/-- A branch that reaches its end has bound a name, which it does not keep to itself. -/
def Offers (t : Builder) (brs : List Branch) (name : String) : Prop :=
  ∃ br ∈ brs, t.OpenAt br.block ∧ (br.names.get? name).isSome ∧ name ≠ br.own

theorem Offers.grow {brs brs' : List Branch} (h : Offers s brs name) (hg : Builder.Grows S s t)
    (hS : ∀ br ∈ brs, br.block ∉ S) (hbrs : brs ⊆ brs') : Offers t brs' name := by
  obtain ⟨br, hbr, hopen, hname⟩ := h
  exact ⟨br, hbrs hbr, hopen.grow hg (hS br hbr), hname⟩

/-- The steps of a body leave its names behind, wherever they start. -/
abbrev LeavesBehind (body : BlockId → Build (Option Reg)) (f : Flow) (ns : List String) (v : Bool) :
    Prop :=
  ∀ c u, u.OpenAt c → Leaves c f ns v u (body c u).1 (body c u).2

theorem offers_branch (own : String) (caught : Reg) {body : BlockId → Build (Option Reg)}
    (hbody : LeavesBehind body f ns v) (s : Builder) :
    ∀ name ∈ namesBehind f own ns,
      Offers (branch own caught body s).2 [(branch own caught body s).1] name := by
  intro name hname
  unfold namesBehind at hname
  split at hname
  · rename_i hf
    obtain ⟨hname, hown⟩ := List.mem_filter.mp hname
    refine ⟨_, List.mem_singleton_self _, ?_⟩
    rw [branch_apply]
    have howned : ∀ u, u.OpenAt ⟨s.func.blocks.size⟩ →
        (owned own caught (body ⟨s.func.blocks.size⟩) u).2.OpenAt ⟨s.func.blocks.size⟩ ∧
          ((owned own caught (body ⟨s.func.blocks.size⟩) u).2.names.get? name).isSome := by
      intro u hu
      unfold owned
      split
      · have h := hbody ⟨s.func.blocks.size⟩ (Build.bind own caught u).2 (hu.congr rfl)
        exact ⟨h.open_at hf, h.names name hname⟩
      · have h := hbody ⟨s.func.blocks.size⟩ u hu
        exact ⟨h.open_at hf, h.names name hname⟩
    obtain ⟨hopen, hsome⟩ := howned _ (openAt_newBlock s)
    exact ⟨hopen.congr rfl, hsome, by simpa using hown⟩
  · cases hname

theorem mem_changed {names before : Names} {r : Reg} (h : names.get? name = some r)
    (hne : before.get? name ≠ some r) : name ∈ names.changed before := by
  simp only [Names.changed, List.mem_mergeSort, List.mem_map, List.mem_filter, bne_iff_ne]
  exact ⟨(name, r), ⟨Names.mem_of_get? h, hne⟩, rfl⟩

theorem within_bindAll (ns : List String) (rs : List Reg) (s : Builder) :
    s.names.Within (bindAll ns rs s).2.names := by
  induction ns generalizing rs s with
  | nil => exact .refl _
  | cons n ns ih =>
    cases rs with
    | nil => exact .refl _
    | cons r rs =>
      exact (Names.within_bind s.names n r).trans (ih rs { s with names := s.names.bind n r })

theorem isSome_bindAll {ns : List String} {rs : List Reg} (hlen : ns.length = rs.length)
    (h : name ∈ ns) (s : Builder) : ((bindAll ns rs s).2.names.get? name).isSome := by
  induction ns generalizing rs s with
  | nil => cases h
  | cons n ns ih =>
    cases rs with
    | nil => cases hlen
    | cons r rs =>
      rw [bindAll, bind_apply]
      rcases List.mem_cons.mp h with rfl | h
      · refine within_bindAll ns rs _ name ?_
        show ((s.names.bind name r).get? name).isSome
        rw [Names.get?_bind, if_pos rfl]
        rfl
      · exact ih (Nat.succ.inj hlen) h _

theorem names_closeBranches (before joins : Names) (brs : List Branch) (s : Builder) :
    (closeBranches before joins brs s).2.names = s.names := by
  induction brs generalizing s with
  | nil => rfl
  | cons br brs ih =>
    rw [closeBranches, bind_apply, ih]
    exact emitAll_fields.2.2.1

theorem within_join (b : BlockId) (before : Names) (brs : List Branch) (t : Builder) :
    t.names.Within (join b before brs t).2.names := by
  rw [join_apply]
  refine Names.Within.trans ?_ (within_bindAll _ _ _)
  rw [names_closeBranches, (startJoins_fields b before _ t).2]
  exact .refl _

/-- What a branch offers is bound behind the join: it is joined, or it was bound before. -/
theorem isSome_join {before : Names} {brs : List Branch} (h : Offers t brs name)
    (hbefore : before.Within t.names) (b : BlockId) :
    ((join b before brs t).2.names.get? name).isSome := by
  obtain ⟨br, hbr, hopen, hsome, hown⟩ := h
  obtain ⟨r, hr⟩ := Option.isSome_iff_exists.mp hsome
  by_cases hsame : before.get? name = some r
  · exact within_join b before brs t name (hbefore name (by rw [hsame]; rfl))
  have hbr' : br ∈ brs.filter fun br => !endsBlock (t.func.code br.block) :=
    List.mem_filter.mpr ⟨hbr, by rw [hopen.unended]; rfl⟩
  have hre : name ∈ br.rebound before :=
    List.mem_filter.mpr ⟨mem_changed hr hsame, by simpa using hown⟩
  rw [join_apply]
  refine isSome_bindAll (by simp) ?_ _
  rw [startJoins_keys]
  exact mem_joinedNames.mpr ⟨br, hbr', hre⟩

/-! ## Alternatives -/

/-- Steps that add alternatives which bind the names `ns` to a dispatch, from `a` to `a'`. Before them
`k` tells whether there is a default, and behind them `k'`. -/
structure Offering (a : Arms) (k : Bool) (ns : List String) (s : Builder) (a' : Arms) (k' : Bool)
    (t : Builder) : Prop where
  names : t.names = s.names
  old : ∀ name, Offers s a.branches name → Offers t a'.branches name
  new : (a.default ≠ .none → k = true) → ∀ name ∈ ns, Offers t a'.branches name
  default : (a.default ≠ .none → k = true) → a'.default ≠ .none → k' = true

section
variable {a a' a'' : Arms} {k k' k'' : Bool} {body : BlockId → Build (Option Reg)}
  {lowered : Reg → Build Arms}

theorem Offering.refl (a : Arms) (k : Bool) (s : Builder) : Offering a k [] s a k s :=
  ⟨rfl, fun _ => id, by simp, fun h => h⟩

theorem Offering.trans (h₁ : Offering a k ns s a' k' t) (h₂ : Offering a' k' ms t a'' k'' u) :
    Offering a k (ns ++ ms) s a'' k'' u where
  names := h₂.names.trans h₁.names
  old name h := h₂.old name (h₁.old name h)
  new hk name hname := by
    rcases List.mem_append.mp hname with h | h
    · exact h₂.old name (h₁.new hk name h)
    · exact h₂.new (h₁.default hk) name h
  default hk := h₂.default (h₁.default hk)

theorem names_pattern (p : Node) (s : Builder) : (pattern p s).2.names = s.names := by
  cases p with
  | number pos text =>
    rw [pattern, number]
    cases numberValue? text <;> rfl
  | _ => rfl

theorem offers_pattern {brs : List Branch} {name : String} (p : Node) (h : Offers s brs name) :
    Offers (pattern p s).2 brs name :=
  h.grow (adds_pattern p s) (S := ∅) (by simp) (List.Subset.refl _)

section
variable (hbody : LeavesBehind body f ns v) (ab : ∀ c, Adds {c} (body c))
include hbody ab

theorem offering_branch (own : String) (caught : Reg) (s : Builder)
    (ha : a'.branches = a.branches ++ [(branch own caught body s).1])
    (hk : (a.default ≠ .none → k = true) → a'.default ≠ .none → k' = true) :
    Offering a k (namesBehind f own ns) s a' k' (branch own caught body s).2 where
  names := by rw [branch_apply]
  old name h := h.grow (adds_branch own caught ab s) (by simp) (by simp [ha])
  new _ name hname := by
    obtain ⟨br, hbr, hoffer⟩ := offers_branch own caught hbody s name hname
    exact ⟨br, by rw [ha]; exact List.mem_append_right _ hbr, hoffer⟩
  default := hk

theorem offering_addDefault (pos : Position) (c : Complaint) (own : String) (caught : Reg) (a : Arms)
    (k : Bool) (s : Builder) :
    Offering a k (if k then [] else namesBehind f own ns) s (addDefault pos c own caught a body s).1
      true (addDefault pos c own caught a body s).2 := by
  unfold Lowering.addDefault
  by_cases hd : a.default ≠ .none
  · simp only [if_pos hd]
    refine ⟨rfl, fun name h => ?_, fun hk name hname => ?_, fun _ _ => rfl⟩
    · exact h.grow (adds_complain pos c s) (S := ∅) (by simp) (List.Subset.refl _)
    · rw [hk hd] at hname
      cases hname
  · simp only [if_neg hd]
    have h : Offering a k (namesBehind f own ns) s (a.addDefault (branch own caught body s).1) true
        (branch own caught body s).2 :=
      offering_branch hbody ab own caught s rfl fun _ _ => rfl
    refine { h with new := fun hk name hname => h.new hk name ?_ }
    split at hname
    · cases hname
    · exact hname

theorem offering_addCase (pos : Position) (p : Node) (a : Arms) (k : Bool) (s : Builder) :
    Offering a k (if isDefault p && k then [] else namesBehind f "" ns) s
      (addCase pos a p body s).1 (isDefault p || k) (addCase pos a p body s).2 := by
  unfold Lowering.addCase
  cases hp : isDefault p with
  | true =>
    simp only [if_true, Bool.true_and, Bool.true_or]
    exact offering_addDefault hbody ab pos _ "" .none a k s
  | false =>
    simp only [Bool.false_eq_true, if_false, Bool.false_and, Bool.false_or]
    have h : Offering a k (namesBehind f "" ns) (pattern p s).2
        (a.addArm (pattern p s).1 (branch "" .none body (pattern p s).2).1) k
        (branch "" .none body (pattern p s).2).2 :=
      offering_branch hbody ab "" .none (pattern p s).2 rfl fun hk => hk
    exact { h with
      names := h.names.trans (names_pattern p s)
      old := fun name hname => h.old name (offers_pattern p hname) }

theorem offering_addClause (pos : Position) (caught : Reg) (name : String) (p : Node) (a : Arms)
    (k : Bool) (s : Builder) :
    Offering a k (if p.isAbsent && k then [] else namesBehind f name ns) s
      (addClause pos caught a name p body s).1 (p.isAbsent || k)
      (addClause pos caught a name p body s).2 := by
  unfold Lowering.addClause
  cases hp : p.isAbsent with
  | true =>
    simp only [if_true, Bool.true_and, Bool.true_or]
    exact offering_addDefault hbody ab pos _ name caught a k s
  | false =>
    simp only [Bool.false_eq_true, if_false, Bool.false_and, Bool.false_or]
    have h : Offering a k (namesBehind f name ns) s
        (a.addArm (pattern p (branch name caught body s).2).1 (branch name caught body s).1) k
        (branch name caught body s).2 :=
      offering_branch hbody ab name caught s rfl fun hk => hk
    exact { h with
      names := (names_pattern p _).trans h.names
      old := fun other hother => offers_pattern p (h.old other hother)
      new := fun hk other hother => offers_pattern p (h.new hk other hother) }

end

theorem binds_of_isAbsent {x : Node} (h : x.isAbsent = true) : x.binds = [] := by
  cases x with
  | absent => rw [Node.binds]
  | _ => cases h

theorem offering_addSeparate (pos : Position) (default : Node)
    (hd : LeavesBehind (node · default) default.flow default.binds default.yields) (a : Arms) (k : Bool)
    (s : Builder) :
    Offering a k (if k then [] else namesBehind default.flow "" default.binds) s
      (addSeparate pos a (optionalNode default) s).1 true
      (addSeparate pos a (optionalNode default) s).2 := by
  by_cases habsent : default.isAbsent = true
  · rw [optionalNode, if_pos habsent, binds_of_isAbsent habsent, namesBehind, List.filter_nil, ite_self,
      ite_self]
    exact { Offering.refl a k s with default := fun _ _ => rfl }
  · rw [optionalNode, if_neg habsent]
    exact offering_addDefault hd (fun c => adds_node c default) pos _ "" .none a k s

/-! ## Choices and guarded sections -/

theorem leaves_dispatch {before : Names} {t : Builder} (hhas : t.func.Has b)
    (hbefore : before.Within t.names) (scrutinee : Value) (a : Arms)
    (hns : ∀ name ∈ ns, Offers t a.branches name) :
    Leaves b .live ns true t (dispatch b scrutinee before a t).1 (dispatch b scrutinee before a t).2 := by
  have hjoin : (join b before a.branches t).2.func.Has b := by
    have := adds_join (S := {b} ∪ blocksOf a.branches) (.inl rfl) before Set.subset_union_right t
    exact this.func.has hhas
  have hp := leaves_produce hjoin (x := (.dispatch · scrutinee a.arms a.default)) fun _ => rfl
  exact { hp with
    within := (within_join b before a.branches t).trans hp.within
    names := fun name hname => hp.within name (isSome_join (hns name hname) hbefore b) }

theorem leaves_choice (pos : Position) {scrutinee : Build (Option Reg)}
    (hx : Leaves b .live ns v s (scrutinee s).1 (scrutinee s).2) {cases : Build Arms}
    (acases : Adds ∅ cases) (hcases : ∀ u, Offering {} false ms u (cases u).1 k (cases u).2)
    {default : Node} (hd : LeavesBehind (node · default) default.flow default.binds default.yields) :
    Leaves b .live (ns ++ (ms ++ if k then [] else namesBehind default.flow "" default.binds)) true s
      (choice b pos scrutinee cases (optionalNode default) s).1
      (choice b pos scrutinee cases (optionalNode default) s).2 := by
  simp only [choice, bind_apply, names_apply]
  have h := (hcases (scrutinee s).2).trans (offering_addSeparate pos default hd _ _ _)
  have hhas : (addSeparate pos (cases (scrutinee s).2).1 (optionalNode default)
      (cases (scrutinee s).2).2).2.func.Has b := by
    have hsep := makes_addSeparate pos (cases (scrutinee s).2).1
      (of_mem_optionalNode fun c => adds_node c default)
    exact (hsep _).1.func.has ((acases _).func.has (hx.open_at rfl).has)
  have hbefore : (scrutinee s).2.names.Within (addSeparate pos (cases (scrutinee s).2).1
      (optionalNode default) (cases (scrutinee s).2).2).2.names := by
    rw [h.names]
    exact .refl _
  have hdispatch := leaves_dispatch hhas hbefore (operand (scrutinee s).1) _
    (h.new fun hne => absurd rfl hne)
  exact hx.trans (hdispatch.from_names h.names.symm)

theorem names_chooseClause (c : BlockId) (caught : Reg) (a : Arms) (s : Builder) :
    (chooseClause c caught a s).2.names = s.names := by
  simp only [chooseClause, bind_apply, newReg_apply, emit_apply, orThrowAgain]
  split <;> rfl

/-- What clauses offer stays on offer when the block that chooses among them is filled. -/
theorem offers_handlers (cs : List Clause)
    (mlowered : ∀ r, Makes [] (lowered r) Arms.branches) (hcs : cs = [] → ns = [])
    (hlowered : ∀ r u, Offering {} false ns u (lowered r u).1 k (lowered r u).2) (s : Builder) :
    (handlers cs lowered s).2.names = s.names ∧
      ∀ name ∈ ns, Offers (handlers cs lowered s).2 (handlers cs lowered s).1.2.2 name := by
  have hdefault : ({} : Arms).default ≠ .none → false = true := absurd rfl
  unfold handlers
  split
  · rename_i hempty
    rw [hcs (List.isEmpty_iff.mp hempty)]
    exact ⟨rfl, by simp⟩
  · rw [bind_apply]
    split
    · have h := hlowered (newReg s).1 (newReg s).2
      exact ⟨h.names, h.new hdefault⟩
    · simp only [choosing, bind_apply, pure_apply]
      generalize hu : (newBlock (newReg s).2).2 = u
      have h := hlowered (newReg s).1 u
      have hblock : u.func.Has ⟨(newReg s).2.func.blocks.size⟩ :=
        hu ▸ (openAt_newBlock (newReg s).2).has
      have hg := adds_chooseClause (S := {⟨(newReg s).2.func.blocks.size⟩}) (Set.mem_singleton _)
        (newReg s).1 (lowered (newReg s).1 u).1 (lowered (newReg s).1 u).2
      refine ⟨?_, fun name hname => (h.new hdefault name hname).grow hg ?_ (List.Subset.refl _)⟩
      · rw [names_chooseClause, h.names, ← hu]
        rfl
      · intro br hbr hmem
        rcases (mlowered (newReg s).1 u).2 br hbr with hold | hnew
        · cases hold
        · exact hnew (Set.mem_singleton_iff.mp hmem ▸ hblock)

theorem names_sealNested (c : BlockId) (last : Option Reg) (s : Builder) :
    (sealNested c last s).2.names = s.names := by
  simp only [sealNested, bind_apply, terminated_apply]
  split <;> rfl

theorem names_ending {cleanup : Node}
    (hc : LeavesBehind (node · cleanup) cleanup.flow cleanup.binds cleanup.yields) (s : Builder) :
    s.names.Within (ending (optionalNode cleanup) s).2.names ∧
      ∀ name ∈ cleanup.binds, ((ending (optionalNode cleanup) s).2.names.get? name).isSome := by
  unfold optionalNode
  split
  · rename_i habsent
    rw [binds_of_isAbsent habsent]
    exact ⟨.refl _, by simp⟩
  · have h := hc ⟨s.func.blocks.size⟩ (newBlock s).2 (openAt_newBlock s)
    simp only [ending, bind_apply, pure_apply, names_sealNested]
    exact ⟨h.within, h.names⟩

/-- A guarded section without its end: the blocks of its body and of what handles faults, behind which
names are joined. -/
def guardedSections (b : BlockId) (body : BlockId → Build (Option Reg)) (cs : List Clause)
    (lowered : Reg → Build Arms) : Build (BlockId × BlockId × Reg) := do
  let before ← Build.names
  let br ← branch "" .none body
  let x ← handlers cs lowered
  join b before (br :: x.2.2)
  return (br.block, x.1, x.2.1)

theorem guarded_eq (b : BlockId) (body : BlockId → Build (Option Reg)) (cs : List Clause)
    (lowered : Reg → Build Arms) (cleanup : Option (BlockId → Build (Option Reg))) :
    guarded b body cs lowered cleanup = guardedSections b body cs lowered >>= fun x =>
      ending cleanup >>= fun last => produce b (.guarded · ⟨x.1, x.2.1, x.2.2, last⟩) := rfl

theorem adds_guardedSections {b : BlockId} {body : BlockId → Build (Option Reg)}
    (ab : ∀ c, Adds {c} (body c)) (cs : List Clause)
    (mlowered : ∀ r, Makes [] (lowered r) Arms.branches) :
    Adds {b} (guardedSections b body cs lowered) :=
  adds_sections (f := fun c d r => pure (c, d, r)) (Set.mem_singleton b) ab cs mlowered
    fun _ _ _ => adds_pure _

theorem names_guardedSections (b : BlockId) (hbody : LeavesBehind body f ns v) (cs : List Clause)
    (mlowered : ∀ r, Makes [] (lowered r) Arms.branches) (hcs : cs = [] → ms = [])
    (hlowered : ∀ r u, Offering {} false ms u (lowered r u).1 k (lowered r u).2) (s : Builder) :
    s.names.Within (guardedSections b body cs lowered s).2.names ∧
      ∀ name ∈ namesBehind f "" ns ++ ms,
        ((guardedSections b body cs lowered s).2.names.get? name).isSome := by
  have hbranch := offers_branch "" .none hbody s
  have hn₁ : (branch "" .none body s).2.names = s.names := by rw [branch_apply]
  simp only [guardedSections, bind_apply, names_apply, pure_apply]
  generalize branch "" .none body s = x₁ at *
  obtain ⟨br, s₁⟩ := x₁
  have hg₂ := (makes_handlers cs mlowered [br] s₁).1
  obtain ⟨hn₂, hclauses⟩ := offers_handlers cs mlowered hcs hlowered s₁
  simp only at hbranch hn₁ ⊢
  generalize handlers cs lowered s₁ = x₂ at *
  obtain ⟨⟨handler, caught, brs⟩, s₂⟩ := x₂
  simp only at hg₂ hn₂ hclauses ⊢
  have hnames : s₂.names = s.names := hn₂.trans hn₁
  refine ⟨hnames ▸ within_join b s.names (br :: brs) s₂, fun name hname => ?_⟩
  refine isSome_join ?_ (hnames ▸ .refl _) b
  rcases List.mem_append.mp hname with h | h
  · exact (hbranch name h).grow hg₂ (by simp) (by simp)
  · obtain ⟨br', hbr', hoffer⟩ := hclauses name h
    exact ⟨br', List.mem_cons_of_mem br hbr', hoffer⟩

theorem leaves_guarded (hhas : s.func.Has b) (hbody : LeavesBehind body f ns v)
    (ab : ∀ c, Adds {c} (body c)) (cs : List Clause)
    (mlowered : ∀ r, Makes [] (lowered r) Arms.branches) (hcs : cs = [] → ms = [])
    (hlowered : ∀ r u, Offering {} false ms u (lowered r u).1 k (lowered r u).2) {cleanup : Node}
    (hc : LeavesBehind (node · cleanup) cleanup.flow cleanup.binds cleanup.yields) :
    Leaves b .live (namesBehind f "" ns ++ ms ++ cleanup.binds) true s
      (guarded b body cs lowered (optionalNode cleanup) s).1
      (guarded b body cs lowered (optionalNode cleanup) s).2 := by
  obtain ⟨hin₁, hsome₁⟩ := names_guardedSections b hbody cs mlowered hcs hlowered s
  have hhas₁ := (adds_guardedSections (b := b) ab cs mlowered s).func.has hhas
  rw [guarded_eq, bind_apply, bind_apply]
  generalize guardedSections b body cs lowered s = x₁ at *
  obtain ⟨⟨block, handler, caught⟩, s₁⟩ := x₁
  simp only at hin₁ hsome₁ hhas₁ ⊢
  obtain ⟨hin₂, hsome₂⟩ := names_ending hc s₁
  have hhas₂ : (ending (optionalNode cleanup) s₁).2.func.Has b :=
    (adds_ending (S := ∅) (of_mem_optionalNode fun c => adds_node c cleanup) s₁).func.has hhas₁
  generalize ending (optionalNode cleanup) s₁ = x₂ at *
  obtain ⟨last, s₂⟩ := x₂
  have hp := leaves_produce hhas₂ (x := (.guarded · ⟨block, handler, caught, last⟩)) fun _ => rfl
  refine { hp with
    within := (hin₁.trans hin₂).trans hp.within
    names := fun name hname => hp.within name ?_ }
  rcases List.mem_append.mp hname with h | h
  · exact hin₂ name (hsome₁ name h)
  · exact hsome₂ name h

end

end

/-! ## Trees -/

theorem Node.yieldsLast_mono {last last' : Bool} (h : last = true → last' = true) (xs : List Node) :
    Node.yieldsLast last xs = true → Node.yieldsLast last' xs = true := by
  cases xs with
  | nil => exact h
  | cons x xs => exact id

namespace Lowering

mutual

/-- The names that a tree binds are at hand behind its code. -/
theorem leaves_node (b : BlockId) (x : Node) {p : Place} (hx : x.exitsPlaced p = true) {s : Builder}
    (hs : s.OpenAt b) : Leaves b x.flow x.binds x.yields s (node b x s).1 (node b x s).2 := by
  cases x with
  | absent =>
    rw [node, Node.flow, Node.binds, Node.yields]
    exact .refl hs (by simp)
  | program _ xs | list _ xs =>
    rw [Node.exitsPlaced] at hx
    rw [node, Node.flow, Node.binds, Node.yields]
    exact leaves_stmts b xs none hx hs
  | number pos text =>
    rw [node, Node.flow, Node.binds, Node.yields, number]
    cases numberValue? text with
    | some val => exact leaves_constant hs.has val
    | none => exact leaves_degrade hs.has pos (.badNumber text)
  | string _ str =>
    rw [node, Node.flow, Node.binds, Node.yields]
    exact leaves_constant hs.has (.string str)
  | word _ name =>
    rw [node, Node.flow, Node.binds, Node.yields]
    exact leaves_word hs name
  | other pos type =>
    rw [node, Node.flow, Node.binds, Node.yields]
    exact leaves_degrade hs.has pos (.unsupportedNode type)
  | assign pos name value =>
    rw [Node.exitsPlaced] at hx
    rw [node]
    exact leaves_assign pos name (value.allows_flow .value hx) (leaves_node b value hx hs)
  | func pos name params body =>
    rw [node, Node.flow, Node.binds, Node.yields]
    exact leaves_function hs pos name params (node · body)
  | call pos callee xs =>
    rw [Node.exitsPlaced, Bool.and_eq_true] at hx
    have hcallee : callee.flow = .live := callee.allows_flow .value hx.1
    rw [node, Node.flow, Flow.ofLive, if_pos ⟨hcallee, Node.allLive_of_placed xs hx.2⟩, Node.binds,
      Node.yields]
    exact leaves_call hs pos hcallee (leaves_node b callee hx.1 hs) fun u hu => leaves_args b xs hx.2 hu
  | command pos name xs line =>
    rw [Node.exitsPlaced] at hx
    rw [node, Node.flow, Flow.ofLive, if_pos (Node.allLive_of_placed xs hx), Node.binds, Node.yields]
    exact leaves_command hs pos name line (leaves_args b xs hx hs)
  | invoke pos name xs =>
    rw [Node.exitsPlaced] at hx
    rw [node, Node.flow, Flow.ofLive, if_pos (Node.allLive_of_placed xs hx), Node.binds, Node.yields]
    exact leaves_issue name [] (leaves_args b xs hx hs)
  | closure pos params captures body =>
    rw [Node.exitsPlaced] at hx
    have hbody : body.flow ≠ .broken := body.allows_flow .statement hx
    rw [node, Node.flow, Flow.ofLive, if_pos hbody, Node.binds, Node.yields]
    exact leaves_closure (by grind) hs.has pos params captures
  | binary pos left op right =>
    rw [Node.exitsPlaced, Bool.and_eq_true] at hx
    have hleft : left.flow = .live := left.allows_flow .value hx.1
    have hright : right.flow = .live := right.allows_flow .value hx.2
    rw [node, Node.flow, Flow.ofLive, if_pos ⟨hleft, hright⟩, Node.binds, Node.yields]
    exact leaves_binary (by grind) pos op ((leaves_node b left hx.1 hs).of_live hleft)
      fun u hu => (leaves_node b right hx.2 hu).of_live hright
  | choice pos scrutinee cs default =>
    rw [Node.exitsPlaced, Bool.and_eq_true, Bool.and_eq_true] at hx
    have hscrutinee : scrutinee.flow = .live := scrutinee.allows_flow .value hx.1.1
    have hdefault : default.flow ≠ .broken := default.allows_flow .statement hx.2
    rw [node, Node.flow, Flow.ofLive,
      if_pos ⟨hscrutinee, Node.casesSound_of_placed cs hx.1.2, hdefault⟩, Node.binds, Node.yields]
    have hcases := fun u => offering_cases pos cs hx.1.2 {} false u
    rw [Bool.or_false] at hcases
    exact leaves_choice pos ((leaves_node b scrutinee hx.1.1 hs).of_live hscrutinee)
      (makes_cases pos {} cs).adds hcases fun c u hu => leaves_node c default hx.2 hu
  | guarded pos body cs cleanup =>
    rw [Node.exitsPlaced, Bool.and_eq_true, Bool.and_eq_true] at hx
    have hbody : body.flow ≠ .broken := body.allows_flow .statement hx.1.1
    have hcleanup : cleanup.flow ≠ .broken := cleanup.allows_flow .statement hx.2
    rw [node, Node.flow, Flow.ofLive,
      if_pos ⟨hbody, Node.clausesSound_of_placed cs hx.1.2, hcleanup⟩, Node.binds, Node.yields]
    exact leaves_guarded hs.has (fun c u hu => leaves_node c body hx.1.1 hu)
      (fun c => adds_node c body) cs (fun r => makes_clauses pos r {} cs)
      (fun hnil => by rw [hnil, Node.bindsOfClauses])
      (fun r u => offering_clauses pos r cs hx.1.2 {} false u)
      fun c u hu => leaves_node c cleanup hx.2 hu
  | ret pos value | throw pos value =>
    rw [Node.exitsPlaced, Bool.and_eq_true] at hx
    have hvalue : value.flow = .live := value.allows_flow .value hx.2
    have h := leaves_node b value hx.2 hs
    rw [node, Node.flow, hvalue, Node.binds, Node.yields]
    exact ⟨h.within, by simp, h.names, by simp⟩

theorem leaves_stmts (b : BlockId) (xs : List Node) (last : Option Reg) {p : Place}
    (hxs : Node.allPlaced p xs = true) {s : Builder} (hs : s.OpenAt b) :
    Leaves b (Node.flowOfStmts xs) (Node.bindsOfStmts xs) (Node.yieldsLast last.isSome xs) s
      (stmts b last xs s).1 (stmts b last xs s).2 := by
  cases xs with
  | nil =>
    rw [stmts, Node.flowOfStmts, Node.bindsOfStmts, Node.yieldsLast]
    exact .refl hs id
  | cons x xs =>
    rw [Node.allPlaced, Bool.and_eq_true] at hxs
    have hx := leaves_node b x hxs.1 hs
    rw [stmts, Node.flowOfStmts, Node.bindsOfStmts, Node.yieldsLast, bind_apply, bind_apply,
      terminated_apply]
    by_cases hlive : x.flow = .live
    · -- control gets through the first statement, so the others are lowered
      have hx := hx.of_live hlive
      rw [if_pos hlive, if_pos hlive, (hx.open_at rfl).unended]
      have hrest := leaves_stmts b xs (node b x s).1 hxs.2 (hx.open_at rfl)
      exact (hx.trans hrest).mono (List.Subset.refl _) (Node.yieldsLast_mono (hx.value rfl) xs)
    · rw [if_neg hlive, if_neg hlive, List.append_nil]
      cases hends : endsBlock ((node b x s).2.func.code b) with
      | true => exact { hx with value := fun h => absurd h hlive }
      | false =>
        have hopen : (node b x s).2.OpenAt b := ⟨(adds_node b x s).func.has hs.has, hends⟩
        have hrest := leaves_stmts b xs (node b x s).1 hxs.2 hopen
        exact ⟨hx.within.trans hrest.within, fun h => absurd h hlive,
          fun name hname => hrest.within name (hx.names name hname), fun h => absurd h hlive⟩

theorem leaves_args (b : BlockId) (xs : List Node) (hxs : Node.allPlaced .value xs = true)
    {s : Builder} (hs : s.OpenAt b) :
    Leaves b .live (Node.bindsOfArgs xs) false s none (args b xs s).2 := by
  cases xs with
  | nil =>
    rw [args, Node.bindsOfArgs]
    exact .refl hs (by simp)
  | cons x xs =>
    rw [Node.allPlaced, Bool.and_eq_true] at hxs
    have hx := (leaves_node b x hxs.1 hs).of_live (x.allows_flow .value hxs.1)
    rw [args, Node.bindsOfArgs]
    exact hx.trans (leaves_args b xs hxs.2 (hx.open_at rfl))

theorem offering_cases (pos : Position) (cs : List Case) (hcs : Node.casesPlaced cs = true) (a : Arms)
    (k : Bool) (s : Builder) :
    Offering a k (Node.bindsOfCases k cs) s (cases pos a cs s).1 (cs.any Case.takesAll || k)
      (cases pos a cs s).2 := by
  cases cs with
  | nil =>
    rw [cases, Node.bindsOfCases]
    exact .refl a k s
  | cons c cs =>
    obtain ⟨p, body⟩ := c
    rw [Node.casesPlaced, Bool.and_eq_true] at hcs
    have hcase := offering_addCase (fun c u hu => leaves_node c body hcs.1 hu)
      (fun c => adds_node c body) pos p a k s
    have hrest := offering_cases pos cs hcs.2 (addCase pos a p (node · body) s).1 (isDefault p || k)
      (addCase pos a p (node · body) s).2
    have hany : ((Case.mk p body :: cs).any Case.takesAll || k) =
        (cs.any Case.takesAll || (isDefault p || k)) := by
      rw [List.any_cons, Case.takesAll]
      ac_rfl
    rw [cases, Node.bindsOfCases, hany]
    exact hcase.trans hrest

theorem offering_clauses (pos : Position) (caught : Reg) (cs : List Clause)
    (hcs : Node.clausesPlaced cs = true) (a : Arms) (k : Bool) (s : Builder) :
    Offering a k (Node.bindsOfClauses k cs) s (clauses pos caught a cs s).1 true
      (clauses pos caught a cs s).2 := by
  cases cs with
  | nil =>
    rw [clauses, Node.bindsOfClauses]
    exact { Offering.refl a k s with default := fun _ _ => rfl }
  | cons c cs =>
    obtain ⟨name, p, body⟩ := c
    rw [Node.clausesPlaced, Bool.and_eq_true] at hcs
    have hclause := offering_addClause (fun c u hu => leaves_node c body hcs.1 hu)
      (fun c => adds_node c body) pos caught name p a k s
    have hrest := offering_clauses pos caught cs hcs.2 (addClause pos caught a name p (node · body) s).1
      (p.isAbsent || k) (addClause pos caught a name p (node · body) s).2
    rw [clauses, Node.bindsOfClauses]
    exact hclause.trans hrest

end

end Lowering

end ScriptMachine
