import ScriptMachine.Code.Listing
import ScriptMachine.Proofs.Check.Soundness
import ScriptMachine.Proofs.Lowering.BlockGraph
import ScriptMachine.Proofs.Number.DecimalText

/-!
# The lines of a listing

A listing has one line for each instruction, block, header and closing brace, and a blank line between
functions, as long as the texts that it shows as they are have no line break. Numbers and quoted texts
never have one, so these texts are names: of functions, of their parameters, of callees and of the
parameters of closures.

`lineBreaks` counts the line breaks of a text, `breaks` those of several, and `Instr.bare`, `Func.bare`
list the texts that are shown as they are. The line breaks of each part of a listing are its own ones
and those of its bare texts (`lineBreaks_parts`, `lineBreaks_func`, `lineBreaks_funcs`).
-/

namespace ScriptMachine

open Text (decimal quoted)

/-! ## Line breaks -/

def lineBreaks (s : String) : Nat := s.toList.count '\n'

def breaks : List String → Nat
  | [] => 0
  | s :: ss => lineBreaks s + breaks ss

@[simp] theorem lineBreaks_append (s t : String) :
    lineBreaks (s ++ t) = lineBreaks s + lineBreaks t := by
  simp [lineBreaks]

@[simp] theorem breaks_append (ss ts : List String) : breaks (ss ++ ts) = breaks ss + breaks ts := by
  induction ss with
  | nil => simp [breaks]
  | cons s ss ih => simp [breaks, ih, Nat.add_assoc]

theorem lineBreaks_eq_zero_iff {s : String} : lineBreaks s = 0 ↔ '\n' ∉ s.toList :=
  List.count_eq_zero

theorem breaks_eq_zero_iff {ss : List String} : breaks ss = 0 ↔ ∀ s ∈ ss, '\n' ∉ s.toList := by
  induction ss with
  | nil => simp [breaks]
  | cons s ss ih => simp [breaks, ih, lineBreaks_eq_zero_iff]

theorem breaks_map {α : Type} {f : α → String} {g : α → List String}
    (h : ∀ a, lineBreaks (f a) = breaks (g a)) (as : List α) :
    breaks (as.map f) = breaks (as.flatMap g) := by
  induction as with
  | nil => rfl
  | cons a as ih => simp [breaks, h, ih]

theorem lineBreaks_intercalate {sep : String} (hsep : lineBreaks sep = 0) (ss : List String) :
    lineBreaks (sep.intercalate ss) = breaks ss := by
  induction ss with
  | nil => simp [lineBreaks, breaks]
  | cons s ss ih =>
    cases ss with
    | nil => simp [breaks]
    | cons t ts =>
      rw [String.intercalate_cons_cons]
      simp only [lineBreaks_append, hsep, ih, breaks, Nat.add_zero]

/-! ## Numbers and quoted texts -/

theorem newline_not_mem_decimalDigits (n : Nat) : '\n' ∉ Text.decimalDigits n := fun h =>
  absurd (Text.not_isBlank_of_digit (Text.digit_of_mem_decimalDigits h)) (by decide)

@[simp] theorem lineBreaks_decimal (k : Int) : lineBreaks (decimal k) = 0 :=
  lineBreaks_eq_zero_iff.mpr fun h => absurd (Text.not_isBlank_of_mem_decimal h) (by decide)

theorem newline_not_mem_hexDigits (w n : Nat) : '\n' ∉ Text.hexDigits w n := by
  have hdigit : ∀ d < 16, '\n' ≠ Text.hexChar d := by decide
  induction w generalizing n with
  | zero => simp [Text.hexDigits]
  | succ w ih => simp [Text.hexDigits, ih, hdigit _ (Nat.mod_lt n (by decide))]

theorem newline_not_mem_escapeChar (c : Char) : '\n' ∉ Text.escapeChar c := by
  have hletter : ∀ l, Text.controlLetter? c = some l → '\n' ≠ l := by
    unfold Text.controlLetter?
    split <;> simp
  unfold Text.escapeChar
  split_ifs with hescaped hprintable
  · rcases hescaped with rfl | rfl <;> decide
  · rintro ⟨⟩
    · exact absurd hprintable (by decide)
    · rename_i h
      cases h
  all_goals
    cases hl : Text.controlLetter? c with
    | some l => simp [hletter l hl]
    | none => simp [newline_not_mem_hexDigits]

@[simp] theorem lineBreaks_quoted (s : String) : lineBreaks (quoted s) = 0 := by
  rw [lineBreaks_eq_zero_iff, quoted]
  simp [newline_not_mem_escapeChar]

theorem newline_not_mem_scientific (n : Nat) (exp : Int) :
    '\n' ∉ Number.scientific Number.layout (Text.decimalDigits n) exp := by
  have hds := newline_not_mem_decimalDigits
  have hn := hds n
  have hsign : '\n' ≠ if exp < 0 then '-' else '+' := by split <;> decide
  unfold Number.scientific Number.padded
  generalize Text.decimalDigits n = ds at hn
  rcases ds with _ | ⟨d, _ | ⟨d', ds⟩⟩ <;> simp_all

theorem newline_not_mem_positional {ds : List Char} (h : '\n' ∉ ds) (exp : Int) :
    '\n' ∉ Number.positional ds exp := by
  have htake := mt (List.mem_of_mem_take (i := (exp + 1).toNat)) h
  have hdrop := mt (List.mem_of_mem_drop (i := (exp + 1).toNat)) h
  unfold Number.positional
  split
  · simp [h]
  · dsimp only
    split <;> simp_all

@[simp] theorem lineBreaks_floatText (x : Float) : lineBreaks (Number.floatText x) = 0 := by
  rw [lineBreaks_eq_zero_iff]
  unfold Number.floatText Number.Layout.text
  cases Binary64.parts x with
  | nan => decide
  | infinite neg => cases neg <;> decide
  | finite neg m q =>
    dsimp only
    split_ifs <;> simp [newline_not_mem_scientific, newline_not_mem_positional,
      newline_not_mem_decimalDigits]

/-! ## Instructions -/

/-- The texts of a value that are shown as they are. -/
def Value.bare : Value → List String
  | closure c => [c.func]
  | _ => []

/-- The names in an instruction: of what it calls, or of the parameters of the closure it makes, as far
as these have a register. -/
def Instr.names : Instr → List String
  | call _ func _ => [func]
  | closureCreate _ _ _ params names => names.take params.length
  | _ => []

def Instr.bare (x : Instr) : List String := x.names ++ x.ins.flatMap Value.bare

@[simp] theorem lineBreaks_reg (r : Reg) : lineBreaks r.render = 0 := by
  simp +ground [Reg.render]

@[simp] theorem lineBreaks_block (b : BlockId) : lineBreaks b.render = 0 := by
  simp +ground [BlockId.render]

@[simp] theorem lineBreaks_value (v : Value) : lineBreaks v.render = breaks v.bare := by
  cases v with
  | bool b => cases b <;> rfl
  | int n => exact lineBreaks_decimal _
  | float x => exact lineBreaks_floatText x
  | string s => exact lineBreaks_quoted s
  | reg r => exact lineBreaks_reg r
  | closure c => simp +ground [Value.render, Value.bare, breaks]
  | _ => rfl

@[simp] theorem lineBreaks_commas (ss : List String) : lineBreaks (Listing.commas ss) = breaks ss :=
  lineBreaks_intercalate rfl ss

@[simp] theorem lineBreaks_arguments (args : List Value) :
    lineBreaks (Listing.arguments args) = breaks (args.flatMap Value.bare) := by
  simp +ground [Listing.arguments, breaks_map lineBreaks_value]

@[simp] theorem breaks_closureParams (rs : List Reg) (ns : List String) :
    breaks (Listing.closureParams rs ns) = breaks (ns.take rs.length) := by
  induction rs generalizing ns with
  | nil => rfl
  | cons r rs ih => cases ns <;> simp +ground [Listing.closureParams, breaks, ih]

@[simp] theorem lineBreaks_captures (cs : List (Capture Value)) :
    lineBreaks (Listing.captures cs) = breaks (cs.flatMap (·.value.bare)) := by
  have hcapture (c : Capture Value) :
      lineBreaks (" " ++ c.reg.render ++ " = " ++ c.value.render) = breaks c.value.bare := by
    simp +ground
  unfold Listing.captures
  cases cs with
  | nil => rfl
  | cons c cs =>
    rw [if_neg (by simp), lineBreaks_append, lineBreaks_intercalate rfl, breaks_map hcapture]
    simp +ground

theorem lineBreaks_optionalBlock {word : String} (hword : lineBreaks word = 0) (b : BlockId) :
    lineBreaks (Listing.optionalBlock word b) = 0 := by
  unfold Listing.optionalBlock
  split
  · rfl
  · simp [hword]

theorem breaks_arms (arms : List Arm) :
    breaks (arms.map fun a => a.pattern.render ++ ": " ++ a.block.render) =
      breaks (arms.flatMap (·.pattern.bare)) :=
  breaks_map (fun a => by simp +ground) arms

/-- Of an instruction the name has no line break, and the rest has those of the bare texts. -/
theorem lineBreaks_parts {x : Instr} (hx : x.isKnown = true) :
    ∃ name rest, Listing.parts x = .ok (name, rest) ∧ lineBreaks name = 0 ∧
      lineBreaks rest = breaks x.bare := by
  cases x with
  | stray what => cases hx
  | binary op dest l r =>
    refine ⟨_, _, rfl, ?_, by simp +ground [Instr.bare, Instr.names, Instr.ins]⟩
    cases op with
    | eq | ne => rfl
    | arith op | order op | bits op => cases op <;> rfl
  | regex dest l r negate =>
    refine ⟨_, _, rfl, ?_, by simp +ground [Instr.bare, Instr.names, Instr.ins]⟩
    cases negate <;> rfl
  | circuit kind dest left right skip =>
    refine ⟨_, _, rfl, ?_, by simp +ground [Instr.bare, Instr.names, Instr.ins]⟩
    cases kind <;> rfl
  | leave how v =>
    refine ⟨_, _, rfl, ?_, by simp +ground [Instr.bare, Instr.names, Instr.ins]⟩
    cases how <;> rfl
  | guarded dest g =>
    refine ⟨_, _, rfl, rfl, ?_⟩
    simp +ground [Instr.bare, Instr.names, Instr.ins, lineBreaks_optionalBlock]
  | dispatch dest v arms default =>
    refine ⟨_, _, rfl, rfl, ?_⟩
    simp +ground [Instr.bare, Instr.names, Instr.ins, lineBreaks_optionalBlock, breaks_arms, List.flatMap_map]
  | _ =>
    refine ⟨_, _, rfl, rfl, ?_⟩
    simp +ground [Instr.bare, Instr.names, Instr.ins, List.flatMap_map, breaks, Value.bare]

theorem lineBreaks_instr {x : Instr} (hx : x.isKnown = true) :
    ∃ body, Listing.instr {} x = .ok ("\t" ++ body ++ "\n") ∧ lineBreaks body = breaks x.bare := by
  obtain ⟨name, rest, hparts, hname, hrest⟩ := lineBreaks_parts hx
  refine ⟨Listing.destination x.out ++ name ++ rest, ?_, ?_⟩
  · simp only [Listing.instr, hparts, id_eq, String.append_assoc]
  · unfold Listing.destination
    split <;> simp +ground [hname, hrest]

/-! ## Functions -/

def Func.instrs (f : Func) : List Instr := f.blocks.toList.flatMap (·.code.toList)

def Func.bare (f : Func) : List String := f.name :: f.params ++ f.instrs.flatMap Instr.bare

theorem lineBreaks_code (b : BlockId) (i : Nat) {xs : List Instr} (hxs : ∀ x ∈ xs, x.isKnown = true) :
    ∃ text, Listing.code {} b i xs = .ok text ∧
      lineBreaks text = xs.length + breaks (xs.flatMap Instr.bare) := by
  induction xs generalizing i with
  | nil => exact ⟨"", rfl, rfl⟩
  | cons x xs ih =>
    obtain ⟨hx, hxs⟩ := List.forall_mem_cons.mp hxs
    obtain ⟨body, hline, hbody⟩ := lineBreaks_instr hx
    obtain ⟨text, htext, hbreaks⟩ := ih (i + 1) hxs
    refine ⟨"\t" ++ body ++ "\n" ++ text, by simp only [Listing.code, hline, htext, Except.map], ?_⟩
    simp +ground [hbody, hbreaks]
    omega

theorem lineBreaks_blocks (f : Func) {bs : List Block}
    (hbs : ∀ x ∈ bs.flatMap (·.code.toList), x.isKnown = true) :
    ∃ text, Listing.blocks {} f bs = .ok text ∧
      lineBreaks text = bs.length + (bs.flatMap (·.code.toList)).length +
        breaks ((bs.flatMap (·.code.toList)).flatMap Instr.bare) := by
  induction bs with
  | nil => exact ⟨"", rfl, rfl⟩
  | cons b bs ih =>
    rw [List.flatMap_cons, List.forall_mem_append] at hbs
    obtain ⟨body, hcode, hbody⟩ := lineBreaks_code b.id 0 hbs.1
    obtain ⟨text, htext, hbreaks⟩ := ih hbs.2
    have hlabel : lineBreaks (Listing.label {} f b.id) = 1 := by
      unfold Listing.label
      dsimp only
      split_ifs <;> simp +ground
    refine ⟨Listing.label {} f b.id ++ body ++ text,
      by simp only [Listing.blocks, hcode, htext, Except.map], ?_⟩
    simp [hlabel, hbody, hbreaks]
    omega

@[simp] theorem breaks_funcParams (ns : List String) (rs : List Reg) :
    breaks (Listing.funcParams ns rs) = breaks ns := by
  induction ns generalizing rs with
  | nil => rfl
  | cons n ns ih => cases rs <;> simp +ground [Listing.funcParams, breaks, ih]

theorem lineBreaks_func {f : Func} (hf : ∀ x ∈ f.instrs, x.isKnown = true) :
    ∃ text, Listing.func {} f = .ok text ∧
      lineBreaks text = f.instrs.length + f.blocks.size + 2 + breaks f.bare := by
  obtain ⟨body, hblocks, hbody⟩ := lineBreaks_blocks f hf
  refine ⟨_, by simp only [Listing.func, hblocks, Except.map]; rfl, ?_⟩
  simp +ground [hbody, Func.bare, Func.instrs, breaks]
  omega

/-! ## Programs -/

/-- The lines that a listing of a program should have. -/
def Program.lines (p : Program) : Nat :=
  (p.funcs.flatMap Func.instrs).length + (p.funcs.flatMap (·.blocks.toList)).length +
    2 * p.funcs.length + (p.funcs.length - 1)

theorem lineBreaks_funcs (p : Program) (first : Bool) {fs : List Func}
    (hfs : ∀ f ∈ fs, p.func? f.name = some f ∧ ∀ x ∈ f.instrs, x.isKnown = true) :
    ∃ text, Listing.funcs {} p first (fs.map (·.name)) = .ok text ∧
      lineBreaks text = (fs.flatMap Func.instrs).length + (fs.flatMap (·.blocks.toList)).length +
        2 * fs.length + (if first then fs.length - 1 else fs.length) + breaks (fs.flatMap Func.bare) := by
  induction fs generalizing first with
  | nil => exact ⟨"", rfl, by cases first <;> rfl⟩
  | cons f fs ih =>
    obtain ⟨⟨hfunc, hknown⟩, hfs⟩ := List.forall_mem_cons.mp hfs
    obtain ⟨ftext, hftext, hf⟩ := lineBreaks_func hknown
    obtain ⟨text, htext, hbreaks⟩ := ih false hfs
    refine ⟨(if first then "" else "\n") ++ ftext ++ text,
      by simp only [List.map_cons, Listing.funcs, hfunc, hftext, htext, Except.map], ?_⟩
    have hblank : lineBreaks (if first then "" else "\n") = if first then 0 else 1 := by
      cases first <;> rfl
    simp only [lineBreaks_append, hblank, hf, hbreaks, List.flatMap_cons, List.length_append,
      List.length_cons, Array.length_toList, breaks_append]
    cases first <;> simp <;> omega

namespace Lowering

theorem isKnown_of_mem_instrs {t : Node} {f : Func} (hf : f ∈ (program t).1.funcs) {x : Instr}
    (hx : x ∈ f.instrs) : x.isKnown = true := by
  obtain ⟨d, -, hmakes⟩ := (program_sourced t).funcs f hf
  obtain ⟨e, hshape, -⟩ := hmakes.shape
  obtain ⟨k, hk, hx⟩ := List.mem_flatMap.mp hx
  obtain ⟨i, hi⟩ := List.mem_iff_getElem?.mp hk
  have hcode : f.code ⟨i⟩ = k.code.toList :=
    Func.code_of_block? (by rw [Func.block?_natCast, ← Array.getElem?_toList, hi])
  obtain ⟨c, hkeeps⟩ := hshape.keeps (hcode ▸ hx)
  cases x with
  | stray what => exact absurd rfl (hkeeps.known what)
  | _ => rfl

theorem lineBreaks_program (t : Node) :
    ∃ text, Listing.program {} (program t).1 = .ok text ∧
      lineBreaks text = (program t).1.lines + breaks ((program t).1.funcs.flatMap Func.bare) := by
  have hnamed := (program_sourced t).wellNamed
  obtain ⟨text, htext, hbreaks⟩ := lineBreaks_funcs (program t).1 true fun f hf =>
    ⟨hnamed.func? hf, fun x => isKnown_of_mem_instrs hf⟩
  exact ⟨text, by rw [Listing.program, hnamed.order, htext], hbreaks⟩

/-- The lines of listings. The line of an instruction starts with a tab and ends with a line break, and
has no other one exactly if no text that it shows as it is has one. The listing of a lowered program
has a line for each instruction, block, header and closing brace and a blank one between functions
exactly if no text in it that is shown as it is has a line break. -/
theorem listing_lines (x : Instr) (t : Node) :
    (x.isKnown = true → ∃ body, Listing.instr {} x = .ok ("\t" ++ body ++ "\n") ∧
      ('\n' ∉ body.toList ↔ ∀ s ∈ x.bare, '\n' ∉ s.toList)) ∧
    ∃ text, Listing.program {} (program t).1 = .ok text ∧
      (lineBreaks text = (program t).1.lines ↔
        ∀ s ∈ (program t).1.funcs.flatMap Func.bare, '\n' ∉ s.toList) := by
  constructor
  · intro hx
    obtain ⟨body, hline, hbody⟩ := lineBreaks_instr hx
    refine ⟨body, hline, ?_⟩
    rw [← lineBreaks_eq_zero_iff, hbody, breaks_eq_zero_iff]
  · obtain ⟨text, htext, hbreaks⟩ := lineBreaks_program t
    refine ⟨text, htext, ?_⟩
    rw [hbreaks, ← breaks_eq_zero_iff]
    omega

/-- A command with line breaks in its name and in its argument. -/
def brokenCommand : Node := .command {} "a\nb" [.string {} "\n"] ""

theorem brokenCommand_listing_lines :
    (Instr.command ⟨0⟩ "a\nb" [.string "\n"]).isKnown = true ∧
      (∃ body, Listing.instr {} (.command ⟨0⟩ "a\nb" [.string "\n"]) = .ok ("\t" ++ body ++ "\n") ∧
        '\n' ∉ body.toList) ∧
      ∃ text, Listing.program {} (program brokenCommand).1 = .ok text ∧
        lineBreaks text = (program brokenCommand).1.lines := by
  obtain ⟨hinstr, text, htext, hlines⟩ :=
    listing_lines (.command ⟨0⟩ "a\nb" [.string "\n"]) brokenCommand
  obtain ⟨body, hline, hbody⟩ := hinstr rfl
  exact ⟨rfl, ⟨body, hline, hbody.mpr (by decide)⟩, text, htext, hlines.mpr (by decide +kernel)⟩

/-- A call of a function with a line break in its name. -/
def brokenCallee : Node := .call {} (.word {} "a\nb") []

/-- Names are not quoted: a callee with a line break takes two lines. -/
theorem brokenCallee_two_lines :
    (∃ text, Listing.instr {} (.call ⟨0⟩ "a\nb" []) = .ok text ∧ lineBreaks text = 2) ∧
    ∃ text, Listing.program {} (program brokenCallee).1 = .ok text ∧
      lineBreaks text = (program brokenCallee).1.lines + 1 := by
  constructor
  · obtain ⟨body, hline, hbody⟩ := lineBreaks_instr (x := .call ⟨0⟩ "a\nb" []) rfl
    have hone : lineBreaks body = 1 := hbody
    exact ⟨_, hline, by simp +ground [hone]⟩
  · obtain ⟨text, htext, hbreaks⟩ := lineBreaks_program brokenCallee
    have hone : breaks ((program brokenCallee).1.funcs.flatMap Func.bare) = 1 := by decide +kernel
    exact ⟨text, htext, hone ▸ hbreaks⟩

end Lowering

end ScriptMachine
