import ScriptMachine.Proofs.Lowering.Accepted
import ScriptMachine.Proofs.Meaning.Choices

/-!
# Lowered programs evaluate

The code of every direct tree does what the tree means (`yields_node`): by induction on the tree, with
the law of each construct from the modules before. So the machine ends the program of such a tree as
its evaluation ends, with the same commands in between.
-/

namespace ScriptMachine

open Lowering Build

namespace Setting

variable {S : Setting}

/-! ## Trees -/

mutual

theorem yields_node (b : BlockId) (x : Node) (n : Nat) (hd : x.isDirect = true)
    (hn : x.nesting ≤ n) : S.Yields n b (node b x) (x.meaning S.cfg.runner [""]) := by
  cases x with
  | absent => rw [node, Node.meaning]; exact yields_none
  | program _ xs =>
    rw [node, Node.meaning]
    exact (simulates_stmts b xs n none .null hd hn).pre fun _ _ _ => Frame.shows_null
  | list _ xs =>
    rw [node, Node.meaning]
    exact (simulates_stmts b xs n none .null hd hn).pre fun _ _ _ => Frame.shows_null
  | number pos text => rw [node, Node.meaning]; exact yields_number pos text
  | string _ v => rw [node, Node.meaning]; exact yields_constant ⟨rfl, rfl⟩
  | word _ name => rw [node, Node.meaning]; exact yields_word name
  | assign _ name value =>
    rw [node, Node.meaning]
    exact yields_assign (by grind) name (yields_node b value n hd hn)
  | binary pos left op right =>
    rw [node, Node.meaning]
    simp only [Node.isDirect, Bool.and_eq_true, Node.nesting, Nat.max_le] at hd hn
    exact yields_binary (by grind) pos op (yields_node b left n hd.1 hn.1) (yields_node b right n hd.2 hn.2)
  | choice pos scrutinee cs default =>
    rw [node, Node.meaning]
    simp only [Node.isDirect, Bool.and_eq_true, Node.nesting, Nat.max_le] at hd hn
    -- the alternatives are one level below
    obtain ⟨n, rfl⟩ : ∃ m, n = m + 1 := ⟨n - 1, by omega⟩
    have hdef : ∀ body ∈ optionalNode default, ∀ c,
        S.Yields n c (body c) (default.meaning S.cfg.runner [""]) :=
      of_mem_optionalNode fun c => yields_node c default n hd.2 (by omega)
    have h := yields_choice (by grind) pos (yields_node b scrutinee (n + 1) hd.1.1 hn.1) (gatherer_cases pos cs)
      (offers_cases pos cs n hd.1.2 (by omega)) (of_mem_optionalNode fun c => adds_node c default) hdef
    unfold optionalNode at h
    cases ha : default.isAbsent <;> simpa [ha] using h
  | command pos name xs line =>
    rw [node, Node.meaning]
    simp only [Node.isDirect, Bool.and_eq_true, beq_iff_eq] at hd
    rw [command, if_pos hd.1]
    exact yields_issue (by grind) name (yieldsAll_args b xs n hd.2 hn)
  | invoke _ name xs =>
    rw [node, Node.meaning]
    exact yields_issue (by grind) name (yieldsAll_args b xs n hd hn)
  | func | call | closure | guarded | ret | throw | other => cases hd

theorem simulates_stmts (b : BlockId) (xs : List Node) (n : Nat) (last : Option Reg) (w : Value)
    (hd : Node.allDirect xs = true) (hn : Node.nestingAll xs ≤ n) :
    S.Simulates n b (stmts b last xs) ((Node.meanings S.cfg.runner [""] xs).flatMap (·.binds))
      (fun l fr => fr.Shows l (operand last) w)
      (Eval.seq w ((Node.meanings S.cfg.runner [""] xs).map (·.eval)))
      fun r v l fr => fr.Shows l (operand r) v := by
  cases xs with
  | nil => rw [stmts, Node.meanings]; exact simulates_pure fun _ _ h => h
  | cons x xs =>
    rw [stmts, Node.meanings]
    simp only [Node.allDirect, Bool.and_eq_true, Node.nestingAll, Nat.max_le] at hd hn
    exact yields_stmts (by grind) (yields_node b x n hd.1 hn.1) fun r v =>
      simulates_stmts b xs n r v hd.2 hn.2

theorem yieldsAll_args (b : BlockId) (xs : List Node) (n : Nat) (hd : Node.allDirect xs = true)
    (hn : Node.nestingAll xs ≤ n) :
    S.YieldsAll n b (args b xs) (Node.meanings S.cfg.runner [""] xs) := by
  cases xs with
  | nil => rw [args, Node.meanings]; exact yieldsAll_nil
  | cons x xs =>
    rw [args, Node.meanings]
    simp only [Node.allDirect, Bool.and_eq_true, Node.nestingAll, Nat.max_le] at hd hn
    exact yieldsAll_cons (by grind) (yields_node b x n hd.1 hn.1) (yieldsAll_args b xs n hd.2 hn.2)

theorem offers_cases (pos : Position) (cs : List Case) (n : Nat) (hd : Node.casesDirect cs = true)
    (hn : Node.nestingCases cs ≤ n) :
    S.Offers n (cases pos · cs) fun m => Node.menu S.cfg.runner [""] m cs := by
  cases cs with
  | nil => exact offers_pure
  | cons c cs =>
    obtain ⟨p, body⟩ := c
    simp only [Node.casesDirect, Bool.and_eq_true, Node.nestingCases, Nat.max_le] at hd hn
    have hcase := offers_addCase (by grind) pos p fun c => yields_node c body n hd.1 hn.1
    exact hcase.bind (fun a => makes_addCase pos a p (by grind))
      (offers_cases pos cs n hd.2 hn.2) (gatherer_cases pos cs)

end

end Setting

/-! ## Names of alternatives -/

namespace Node

variable {runner : Option Runner} {name : String}

theorem not_mem_binds_addArm {m : Menu} {v : Value} {x : Meaning} (hm : name ∉ m.binds)
    (hx : name ∉ x.binds) : name ∉ (m.addArm v x).binds := by
  rw [Menu.mem_binds] at hm ⊢
  rintro ⟨y, hy, hname⟩
  rcases Menu.mem_meanings_addArm.mp hy with hy | rfl
  · exact hm ⟨y, hy, hname⟩
  · exact hx hname

theorem not_mem_binds_addDefault {m : Menu} {x : Meaning} (hm : name ∉ m.binds)
    (hx : name ∉ x.binds) : name ∉ (m.addDefault x).binds := by
  rw [Menu.mem_binds] at hm ⊢
  rintro ⟨y, hy, hname⟩
  rw [Menu.meanings_addDefault] at hy
  rcases List.mem_append.mp hy with hy | hy
  · exact hm ⟨y, hy, hname⟩
  · split at hy
    · obtain rfl := List.mem_singleton.mp hy
      exact hx hname
    · cases hy

/-- The name that alternatives keep to themselves does not matter where they do not bind it. -/
theorem choice_singleton {m : Menu} (hm : name ∉ m.binds) (x : Meaning) :
    Meaning.choice [name] x m = Meaning.choice [] x m := by
  have hfilter : m.binds.filter (· ∉ [name]) = m.binds.filter (· ∉ []) :=
    List.filter_congr fun other ho => by
      have hne : other ≠ name := fun heq => hm (heq ▸ ho)
      simp [hne]
  rw [Meaning.choice, Meaning.choice, hfilter]

mutual

theorem meaning_of_neverAssigns (x : Node) (h : x.neverAssigns name = true) :
    x.meaning runner [name] = x.meaning runner [] ∧ name ∉ (x.meaning runner []).binds := by
  cases x with
  | absent | number | string | word | other | func | call | closure | guarded | ret | throw =>
    exact ⟨by simp only [meaning], by simp [meaning, Meaning.const]⟩
  | program _ xs | list _ xs =>
    obtain ⟨heq, hmem⟩ := meanings_of_neverAssign xs h
    simp only [meaning, heq]
    exact ⟨trivial, hmem⟩
  | command _ _ xs | invoke _ _ xs =>
    obtain ⟨heq, hmem⟩ := meanings_of_neverAssign xs h
    simp only [meaning, heq]
    exact ⟨trivial, hmem⟩
  | assign _ target value =>
    simp only [neverAssigns, Bool.and_eq_true, bne_iff_ne] at h
    obtain ⟨heq, hmem⟩ := meaning_of_neverAssigns value h.2
    simp only [meaning, heq]
    exact ⟨trivial, by simp [Meaning.assign, hmem, Ne.symm h.1]⟩
  | binary _ left op right =>
    simp only [neverAssigns, Bool.and_eq_true] at h
    obtain ⟨heq₁, hmem₁⟩ := meaning_of_neverAssigns left h.1
    obtain ⟨heq₂, hmem₂⟩ := meaning_of_neverAssigns right h.2
    simp only [meaning, heq₁, heq₂]
    refine ⟨trivial, ?_⟩
    unfold Meaning.binary
    split <;> simp [hmem₁, hmem₂]
  | choice _ scrutinee cs default =>
    simp only [neverAssigns, Bool.and_eq_true] at h
    obtain ⟨heq₁, hmem₁⟩ := meaning_of_neverAssigns scrutinee h.1.1
    obtain ⟨heq₂, hmem₂⟩ := menu_of_neverAssign {} cs h.1.2 (by simp [Menu.binds])
    obtain ⟨heq₃, hmem₃⟩ := meaning_of_neverAssigns default h.2
    simp only [meaning, heq₁, heq₂, heq₃]
    have hbinds : name ∉ (if default.isAbsent then menu runner [] {} cs
        else (menu runner [] {} cs).addDefault (default.meaning runner [])).binds := by
      split
      · exact hmem₂
      · exact not_mem_binds_addDefault hmem₂ hmem₃
    rw [choice_singleton hbinds]
    exact ⟨rfl, by simp [Meaning.choice, hmem₁, hbinds]⟩

theorem meanings_of_neverAssign (xs : List Node) (h : allNeverAssign name xs = true) :
    meanings runner [name] xs = meanings runner [] xs ∧
      name ∉ (meanings runner [] xs).flatMap (·.binds) := by
  cases xs with
  | nil => simp [meanings]
  | cons x xs =>
    simp only [allNeverAssign, Bool.and_eq_true] at h
    obtain ⟨heq₁, hmem₁⟩ := meaning_of_neverAssigns x h.1
    obtain ⟨heq₂, hmem₂⟩ := meanings_of_neverAssign xs h.2
    rw [meanings, meanings, heq₁, heq₂, List.flatMap_cons, List.mem_append]
    exact ⟨rfl, not_or.mpr ⟨hmem₁, hmem₂⟩⟩

theorem menu_of_neverAssign (m : Menu) (cs : List Case) (h : casesNeverAssign name cs = true)
    (hm : name ∉ m.binds) : menu runner [name] m cs = menu runner [] m cs ∧
      name ∉ (menu runner [] m cs).binds := by
  cases cs with
  | nil => exact ⟨by simp only [menu], by rwa [menu]⟩
  | cons c cs =>
    obtain ⟨p, body⟩ := c
    simp only [casesNeverAssign, Bool.and_eq_true] at h
    obtain ⟨heq, hmem⟩ := meaning_of_neverAssigns body h.1
    simp only [menu, heq]
    refine menu_of_neverAssign _ cs h.2 ?_
    split
    · exact not_mem_binds_addDefault hm hmem
    · exact not_mem_binds_addArm hm hmem

end

end Node

/-! ## Programs -/

namespace Machine

/-- What can be seen of a result: how the run ended, if it did, and the commands that it issued. -/
def Result.observed (r : Result) : Option (Except Cause Value) × List (List String) :=
  (match r.ending with
    | .value v => some (.ok v)
    | .fault f => some (.error f.cause)
    | .crash _ | .unfinished => none,
    r.calls)

end Machine

namespace Lowering

variable {x : Node} {f : Func} {quiet : Prop} {name : String} {cfg : RunConfig}

theorem sealBody_apply {b : BlockId} {t : Builder} (ht : t.Stands b) (last : Option Reg) :
    sealBody b last t = emit b (.leave .ret (operand last)) t := by
  rw [sealBody, bind_apply, terminated_apply, ht.live]
  show leave b (operand last) t = _
  rw [leave, bind_apply, inClosure_apply, ht.outside]
  rfl

theorem perform_return {runner : Option Runner} {p : Program} {fr : Frame} {w : World} {o v : Value}
    (h : fr.read o = .ok v) :
    Machine.perform runner p fr w (.leave .ret o) = (w, .ok (.leave v .ret)) := by
  simp only [Machine.perform, Machine.leave, h]
  rfl

/-- The code of a direct tree as a function without parameters, which ends with a return of the
value. -/
theorem evaluates_of_makes {S : Setting} (h : (⟨name, [], x⟩ : Declaration).Makes quiet S.func)
    (hd : x.isDirect = true) :
    ∃ (r : Option Reg) (q : Mark), S.Evaluates x.nesting S.func.entry ⟨0, 0, []⟩ q (fun _ _ => True)
      (x.meaning S.cfg.runner [""]).eval (fun v l fr => fr.Shows l (operand r) v) ∧
      (S.func.code S.func.entry)[q.index]? = some (.leave .ret (operand r)) := by
  obtain ⟨s, hfunc, hnames, hencl, hS, -⟩ := h
  simp only at hfunc hS
  have hstands : s.Stands s.func.entry := {
    has := by rw [hfunc]; exact Func.new_has_entry _ _
    live := by rw [hfunc, Func.new_code]; rfl
    outside := hencl
    numRegs := by simp [hfunc]
    proper := by simp [hnames, Names.Proper] }
  have hmark : s.mark s.func.entry = ⟨0, 0, []⟩ := by
    simp [Builder.mark, hfunc, Func.new_code, hnames]
  have happ : wholeBody s.func (node · x) s =
      sealBody s.func.entry (node s.func.entry x s).1 (node s.func.entry x s).2 := by
    have hparams : s.func.params = [] := by simp [hfunc]
    simp only [wholeBody, hparams, bindAll, bind_apply, pure_apply]
  have hentry := (adds_wholeBody s.func (fun c => adds_node c x) s).func.entry
  have hseal := adds_sealBody (Set.mem_singleton s.func.entry) (node s.func.entry x s).1
    (node s.func.entry x s).2
  rw [← hS] at hentry
  rw [happ] at hS
  have hagree : Agrees S.func ∅ s (sealBody s.func.entry (node s.func.entry x s).1
      (node s.func.entry x s).2).2 := by
    rw [hS]
    exact ⟨le_refl _, le_refl _, fun _ _ _ _ h => h, fun _ _ _ _ => rfl⟩
  have hsim := Setting.yields_node s.func.entry x x.nesting hd (le_refl _) s hstands
    (hagree.left hseal (by rintro c rfl; exact .inl hstands.has))
  refine ⟨(node s.func.entry x s).1, (node s.func.entry x s).2.mark s.func.entry, ?_, ?_⟩
  · rw [hentry, ← hmark]
    exact hsim.evaluates
  · rw [hentry, hS, sealBody_apply hsim.stands, emit_apply, Func.append_code_self hsim.stands.has]
    exact List.getElem?_concat_length

/-- What can be seen of a run from the start of such a function. -/
theorem run_of_makes (h : (⟨name, [], x⟩ : Declaration).Makes quiet f) (hfits : f.Fits)
    (hd : x.isDirect = true) (hdepth : x.nesting < cfg.maxDepth) (p : Program) {fr : Frame}
    (hfr : fr.Of f) :
    ∃ r, (State.inCode f f.entry 0 fr {} {}).run cfg p = some r ∧
      r.observed = (some (x.evaluate cfg.runner [""]).1, (x.evaluate cfg.runner [""]).2) := by
  obtain ⟨r, q, hev, hx⟩ := evaluates_of_makes (S := ⟨cfg, p, f, hfits.code⟩) h hd
  obtain ⟨t, ht, hrun⟩ := (hev fr {} 0 {} (by simpa using hdepth) hfr (fun _ => .none) trivial).run
  rw [show (State.inCode f f.entry 0 fr {} {}).run cfg p = t.run cfg p from hrun]
  unfold Node.evaluate
  generalize (x.meaning cfg.runner [""]).eval {} = out at *
  obtain ⟨c | v, ν⟩ := out
  · obtain ⟨f, hf, rfl⟩ : ∃ f, t.run cfg p = some ⟨ν.issued.reverse, .fault f⟩ ∧ f.cause = c :=
      Machine.run_faulted ht
    exact ⟨_, hf, rfl⟩
  · obtain ⟨fr', rfl, -, -, hshow⟩ := ht
    have hleave : Machine.step cfg p _ = .state _ := Machine.step_leave (k := {})
      (w := ⟨ν.issued, 0⟩) hx (lt_of_lt_of_le (List.getElem?_eq_some_iff.mp hx).1 (le_of_lt (hfits.code _)))
      (perform_return hshow.read)
    rw [State.run, hleave]
    exact ⟨_, Machine.run_finish rfl, rfl⟩

/-- The main function of a program starts in a frame of its own. -/
theorem initial_of_makes (h : (⟨name, [], x⟩ : Declaration).Makes quiet f) (hfits : f.Fits)
    {p : Program} (hmain : p.main? = some f) :
    ∃ fr, fr.Of f ∧ Machine.initial p = .ok (.ok (State.inCode f f.entry 0 fr {} {})) := by
  obtain ⟨e, hshape, -⟩ := h.shape
  have hparams : f.paramRegs = [] := by
    obtain ⟨s, hfunc, -, -, rfl, -⟩ := h
    rw [(adds_wholeBody s.func (fun c => adds_node c x) s).func.paramRegs, hfunc]
    exact List.length_eq_zero_iff.mp (Func.new_paramRegs_length _ _)
  have hnew : Frame.new f = .ok ⟨f, Array.replicate f.numRegs.toNat .unset⟩ :=
    Frame.new_eq_ok_iff.mpr ⟨⟨hshape.numRegs, hfits.numRegs⟩, rfl⟩
  obtain ⟨blk, hblk⟩ := Func.block?_eq_some_of_has hshape.has
  refine ⟨⟨f, Array.replicate f.numRegs.toNat .unset⟩, ⟨rfl, ?_⟩, ?_⟩
  · simpa using hshape.numRegs
  · have hstart : ∀ s : State, s.start ⟨f, Array.replicate f.numRegs.toNat .unset⟩ f.entry {} =
        { s with frame := ⟨f, Array.replicate f.numRegs.toNat .unset⟩, site := ⟨f.entry, blk.code, 0⟩,
                 ended := none, stack := {} } := fun s => by
      unfold State.start
      simp only [hblk]
    have hcode : blk.code = (f.code f.entry).toArray := by
      rw [Func.code_of_block? hblk, Array.toArray_toList]
    unfold Machine.initial
    rw [hmain]
    simp only [hnew, hparams, bindArgs]
    show Except.ok (Except.ok (State.start _ _ _ _)) = _
    rw [hstart, hcode]
    rfl

/-- The program of a direct tree ends as the evaluation of the tree, in which alternatives keep only
the empty name to themselves. -/
theorem observed_main_of_direct (hd : x.isDirect = true) (hfit : Fit (program x).1)
    (hdepth : x.nesting < cfg.maxDepth) : (Machine.main cfg (program x).1).observed =
      (some (x.evaluate cfg.runner [""]).1, (x.evaluate cfg.runner [""]).2) := by
  have hsource := program_sourced x
  obtain ⟨f, hf, hname, hmakes⟩ := hsource.main
  have hmain : (program x).1.main? = some f := by
    have hfunc := hsource.wellNamed.func? hf
    rwa [hname] at hfunc
  obtain ⟨fr, hfr, hinit⟩ := initial_of_makes hmakes (hfit f hf) hmain
  obtain ⟨r, hrun, hr⟩ := run_of_makes hmakes (hfit f hf) hd hdepth (program x).1 hfr
  simp only [Machine.main, hinit, hrun]
  exact hr

/-- What can be seen of a run of the program of a direct tree is what the evaluation of the tree gives,
in which alternatives keep only the empty name to themselves. They need not where it is not assigned
to. -/
theorem observed_main (x : Node) (cfg : RunConfig) (hd : x.isDirect = true)
    (hfit : Fit (program x).1) (hdepth : x.nesting < cfg.maxDepth) :
    (Machine.main cfg (program x).1).observed =
        (some (x.evaluate cfg.runner [""]).1, (x.evaluate cfg.runner [""]).2) ∧
      (x.neverAssigns "" = true → x.evaluate cfg.runner [""] = x.evaluate cfg.runner []) := by
  refine ⟨observed_main_of_direct hd hfit hdepth, fun h => ?_⟩
  rw [Node.evaluate, Node.evaluate, (Node.meaning_of_neverAssigns x h).1]

/-- `x = "a"; match x { "a" => y = (echo x) } else y = "b"; y and y == "a"`. -/
def chosenNames : Node :=
  .list {} [
    .assign {} "x" (.string {} "a"),
    .choice {} (.word {} "x")
      [.mk (.string {} "a") (.assign {} "y" (.command {} "echo" [.word {} "x"] ""))]
      (.assign {} "y" (.string {} "b")),
    .binary {} (.word {} "y") "and" (.binary {} (.word {} "y") "==" (.string {} "a"))]

/-- A runner that answers with the first argument. -/
def echoing : Runner := ⟨fun _ _ args => .ok (args.head?.elim .unset .string)⟩

theorem chosenNames_observed_main :
    Fit (program chosenNames).1 ∧ chosenNames.neverAssigns "" = true ∧
    chosenNames.evaluate (some echoing) [] = (.ok (.bool true), [["echo", "a"]]) ∧
    (Machine.main { maxDepth := 2, runner := some echoing } (program chosenNames).1).observed =
      (some (.ok (.bool true)), [["echo", "a"]]) := by
  have hfit : Fit (program chosenNames).1 := by decide +kernel
  have hname : chosenNames.neverAssigns "" = true := by decide +kernel
  have heval : chosenNames.evaluate (some echoing) [] = (.ok (.bool true), [["echo", "a"]]) := rfl
  obtain ⟨hmain, hown⟩ := observed_main chosenNames { maxDepth := 2, runner := some echoing }
    (by decide +kernel) hfit (by decide +kernel)
  rw [hown hname, heval] at hmain
  exact ⟨hfit, hname, heval, hmain⟩

/-- `match "a" { "a" => "" = "b" }; ""`, where the empty name is assigned to and used. -/
def emptyName : Node :=
  .list {} [
    .choice {} (.string {} "a") [.mk (.string {} "a") (.assign {} "" (.string {} "b"))] .absent,
    .word {} ""]

/-- A name that an alternative binds is lost behind the choice if it is empty. -/
theorem emptyName_observed : (program emptyName).2 = [] ∧
    (Machine.main { maxDepth := 4096 } (program emptyName).1).observed = (some (.ok (.string "")), []) ∧
    emptyName.evaluate none [] = (.ok (.string "b"), []) := by
  refine ⟨by decide +kernel, ?_, rfl⟩
  rw [observed_main_of_direct (by decide +kernel) (by decide +kernel) (by decide +kernel)]
  rfl

end Lowering

end ScriptMachine
