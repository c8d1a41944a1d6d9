import ScriptMachine.Proofs.Machine.Sites
import ScriptMachine.Proofs.Renaming.Agreement

/-!
# Runs up to a pairing

Programs that are alike run in lockstep: from states that agree a step leads to states that agree, or
to one in which a register could not be accessed (`matches_step`). Where no run has such a fault, the
results agree as well: both programs issue the same commands and end with values that agree, or with
faults of the same kind, with the same text and at the same place (`agree_main`).
-/

namespace ScriptMachine

variable {ρ : Pairing}

/-! ## States -/

theorem forall₂_getElem? {α β : Type} {R : α → β → Prop} {as : List α} {bs : List β}
    (h : List.Forall₂ R as bs) (i : Nat) : Option.Rel R as[i]? bs[i]? := by
  induction h generalizing i with
  | nil => exact .none
  | cons hab _ ih =>
    cases i with
    | zero => exact .some hab
    | succ i => simpa using ih i

/-- The same place in code that is the same up to a pairing. -/
structure Site.Alike (ρ : Reg → Reg → Prop) (site site' : Site) : Prop where
  block : site.block = site'.block
  ip : site.ip = site'.ip
  code : List.Forall₂ (Instr.Alike ρ (SameCaptures ρ)) site.code.toList site'.code.toList

namespace Site.Alike

variable {ρ : Reg → Reg → Prop} {site site' : Site}

theorem size (h : site.Alike ρ site') : (site.code.size : Int) = site'.code.size := by
  have := h.code.length_eq
  simp only [Array.length_toList] at this
  rw [this]

theorem instr? (h : site.Alike ρ site') :
    Option.Rel (Instr.Alike ρ (SameCaptures ρ)) site.instr? site'.instr? := by
  unfold Site.instr?
  rw [← h.ip]
  split
  · exact .none
  · rw [← Array.getElem?_toList, ← Array.getElem?_toList]
    exact forall₂_getElem? h.code _

end Site.Alike

/-- All that waits for blocks of the function `name` and its counterpart. -/
inductive WaitsAgree (ρ : Pairing) : String → List Waiting → List Waiting → Prop
  | nil {name} : WaitsAgree ρ name [] []
  | within {name site site' after after' ws ws'} (hsite : site.Alike (ρ name) site')
      (hafter : after.Agree ρ name after') (hws : WaitsAgree ρ name ws ws') :
      WaitsAgree ρ name (.within site after :: ws) (.within site' after' :: ws')
  | caller {name fr fr' site site' d d' ws ws'} (hfr : fr.Agree ρ fr')
      (hsite : site.Alike (ρ fr.func.name) site') (hd : ρ fr.func.name d d')
      (hws : WaitsAgree ρ fr.func.name ws ws') :
      WaitsAgree ρ name (.caller fr site d :: ws) (.caller fr' site' d' :: ws')

theorem WaitsAgree.length {name : String} {ws ws' : List Waiting} (h : WaitsAgree ρ name ws ws') :
    ws.length = ws'.length := by
  induction h with
  | nil => rfl
  | within _ _ _ ih => simp [ih]
  | caller _ _ _ _ ih => simp [ih]

namespace State

/-- States in front of an instruction and its counterpart. -/
structure Abreast (ρ : Pairing) (s s' : State) : Prop where
  frame : s.frame.Agree ρ s'.frame
  site : s.site.Alike (ρ s.frame.func.name) s'.site
  stack : WaitsAgree ρ s.frame.func.name s.stack.entries s'.stack.entries
  world : s.world = s'.world

/-- States that agree up to a pairing. Where a block has ended, its place does not matter. -/
structure Agree (ρ : Pairing) (s s' : State) : Prop where
  frame : s.frame.Agree ρ s'.frame
  site : s.ended = none → s.site.Alike (ρ s.frame.func.name) s'.site
  ended : Option.Rel (Outcome.Agree ρ) s.ended s'.ended
  stack : WaitsAgree ρ s.frame.func.name s.stack.entries s'.stack.entries
  world : s.world = s'.world

/-- A state holds a fault about a register. -/
def Spoilt (s : State) : Prop := ∃ f, s.Holds f ∧ f.cause.isAccess = true

/-- States that agree, unless one of them holds a fault about a register. -/
def Leads (ρ : Pairing) (s s' : State) : Prop := s.Agree ρ s' ∨ s.Spoilt ∨ s'.Spoilt

theorem spoilt_fail (s : State) {c : Cause} (hc : c.isAccess = true) :
    (s.fail { cause := c }).Spoilt :=
  ⟨_, .inl rfl, by rwa [Fault.locate_cause]⟩

namespace Abreast

variable {s s' : State}

section
variable (h : s.Abreast ρ s')
include h

theorem depth : s.depth = s'.depth := by
  unfold State.depth
  rw [s.stack.height_eq, s'.stack.height_eq, h.stack.length]

theorem location {i i' : Int} (hi : i = i') : s.location i = s'.location i' := by
  unfold State.location
  rw [h.frame.func.name, h.site.block, hi]

theorem finish {o o' : Outcome} (ho : o.Agree ρ o') : (s.finish o).Agree ρ (s'.finish o') where
  frame := h.frame
  site hnone := by cases hnone
  ended := .some ho
  stack := h.stack
  world := h.world

theorem fail {f f' : Fault} (hc : f.cause.Agree ρ f'.cause)
    (hp : f.place = f'.place) : (s.fail f).Agree ρ (s'.fail f') := by
  refine h.finish (.fault ?_ ?_)
  · rw [Fault.locate_cause, Fault.locate_cause]
    exact hc
  · have hloc : s.location s.site.ip.toInt = s'.location s'.site.ip.toInt :=
      h.location (by rw [h.site.ip])
    unfold Fault.locate
    rw [hloc, hp]
    split
    · exact hp
    · split
      · exact hp
      · rfl

theorem advance {fr fr' : Frame} (hfr : fr.Agree ρ fr') (hfunc : fr.func = s.frame.func)
    (skip : Int64) : (s.advance fr skip).Agree ρ (s'.advance fr' skip) where
  frame := hfr
  site _ := by
    show Site.Alike (ρ fr.func.name) _ _
    rw [hfunc]
    exact ⟨h.site.block, by simp [State.advance, h.site.ip], h.site.code⟩
  ended := .none
  stack := by
    show WaitsAgree ρ fr.func.name _ _
    rw [hfunc]
    exact h.stack
  world := h.world

theorem store {d d' : Reg} (hd : ρ s.frame.func.name d d') {v v' : Value}
    (hv : v.Agree ρ v') : Leads ρ (s.store d v) (s'.store d' v') := by
  have hw := h.frame.write hd hv
  unfold State.store
  generalize s.frame.write d v = a at hw ⊢
  generalize s'.frame.write d' v' = b at hw ⊢
  cases hw with
  | ok hw => exact .inl (h.advance hw.1 hw.2 0)
  | error hc => exact .inl (h.fail hc rfl)
  | left hc => exact .inr (.inl (s.spoilt_fail hc))
  | right hc => exact .inr (.inr (s'.spoilt_fail hc))

end

end Abreast

theorem agree_start {s s' : State} (hworld : s.world = s'.world) {fr fr' : Frame}
    (hfr : fr.Agree ρ fr') (b : BlockId) {k k' : Stack}
    (hk : WaitsAgree ρ fr.func.name k.entries k'.entries) :
    (s.start fr b k).Agree ρ (s'.start fr' b k') := by
  have hcode := hfr.func.code b
  unfold State.start
  cases hblk : fr.func.block? b with
  | none =>
    have hhas : ¬ fr.func.Has b := by
      rw [← Func.isSome_block?_iff, hblk]
      simp
    have hblk' : fr'.func.block? b = none := by
      rw [← Option.not_isSome_iff_eq_none, Func.isSome_block?_iff]
      unfold Func.Has at hhas ⊢
      rwa [← hfr.func.size]
    rw [hblk']
    refine ⟨hfr, nofun, .some (.fault ?_ rfl), hk, hworld⟩
    rw [hfr.func.name]
    exact .same nofun
  | some blk =>
    have hhas : fr.func.Has b := by
      rw [← Func.isSome_block?_iff, hblk]
      rfl
    obtain ⟨blk', hblk'⟩ : ∃ blk', fr'.func.block? b = some blk' := by
      apply Func.block?_eq_some_of_has
      unfold Func.Has at hhas ⊢
      rwa [← hfr.func.size]
    rw [Func.code_of_block? hblk, Func.code_of_block? hblk'] at hcode
    rw [hblk']
    exact ⟨hfr, fun _ => ⟨rfl, rfl, hcode⟩, .none, hk, hworld⟩

theorem Abreast.enter {s s' : State} (h : s.Abreast ρ s') (cfg : RunConfig) (b : BlockId)
    {after after' : After} (ha : after.Agree ρ s.frame.func.name after') :
    (s.enter cfg b after).Agree ρ (s'.enter cfg b after') := by
  have hstack : WaitsAgree ρ s.frame.func.name (s.stack.push (.within s.site after)).entries
      (s'.stack.push (.within s'.site after')).entries := .within h.site ha h.stack
  unfold State.enter
  dsimp only
  rw [← h.depth]
  by_cases hdepth : s.depth < cfg.maxDepth
  · rw [if_pos hdepth, if_pos hdepth]
    exact agree_start h.world h.frame b hstack
  · rw [if_neg hdepth, if_neg hdepth]
    refine ⟨h.frame, nofun, .some (.fault ?_ rfl), hstack, h.world⟩
    rw [h.frame.func.name]
    exact .same nofun

/-- A call, if the registers of its function can be had. -/
theorem Abreast.call {s s' : State} (h : s.Abreast ρ s') (cfg : RunConfig) {c c' : Callee}
    (hc : c.Agree ρ c') {fr fr' : Frame} (hnew : Frame.new c.func = .ok fr)
    (hnew' : Frame.new c'.func = .ok fr') {d d' : Reg} (hd : ρ s.frame.func.name d d') :
    ∃ t t', s.call cfg c d = .ok t ∧ s'.call cfg c' d' = .ok t' ∧ Leads ρ t t' := by
  unfold State.call
  rw [← h.depth]
  by_cases hdepth : cfg.maxDepth ≤ s.depth
  · rw [if_pos hdepth, if_pos hdepth]
    exact ⟨_, _, rfl, rfl, .inl (h.fail (hc.tooDeep s.depth) rfl)⟩
  · rw [if_neg hdepth, if_neg hdepth, hnew, hnew']
    have hw := hc.writeAll hnew hnew'
    simp only [bind, Except.bind, pure, Except.pure]
    generalize fr.writeAll c.binds = a at hw ⊢
    generalize fr'.writeAll c'.binds = b at hw ⊢
    cases hw with
    | ok hw =>
      refine ⟨_, _, rfl, rfl, .inl ?_⟩
      rw [← hc.start]
      exact agree_start h.world hw c.start (.caller h.frame h.site hd h.stack)
    | error he => exact ⟨_, _, rfl, rfl, .inl (h.fail he rfl)⟩
    | left he =>
      cases b <;> exact ⟨_, _, rfl, rfl, .inr (.inl (s.spoilt_fail he))⟩
    | right he =>
      cases a <;> exact ⟨_, _, rfl, rfl, .inr (.inr (s'.spoilt_fail he))⟩

end State

/-- The value that handlers receive for faults that agree. -/
theorem Fault.agree_caught? {f f' : Fault} (hc : f.cause.Agree ρ f'.cause)
    (hp : f.place = f'.place) : Option.Rel (Value.Agree ρ) f.caught? f'.caught? := by
  obtain ⟨c, place⟩ := f
  obtain ⟨c', place'⟩ := f'
  dsimp only at hc hp
  subst hp
  cases hc with
  | thrown hv => exact .some hv
  | same hne =>
    cases c with
    | thrown v => exact absurd rfl (hne v)
    | tooDeepCall | tooDeepClosure | tooDeepBlock => exact .none
    | _ => exact .some (.plain nofun)

namespace Machine

variable {cfg : RunConfig} {p p' : Program} {s s' : State}

/-! ## Steps -/

section
variable (h : s.Abreast ρ s')

include h

theorem leads_conclude {d d' : Reg} (hd : ρ s.frame.func.name d d') {o o' : Outcome}
    (ho : o.Agree ρ o') : State.Leads ρ (conclude s d o) (conclude s' d' o') := by
  cases ho with
  | fault hc hp => exact .inl (h.fail hc hp)
  | @value v v' exit hv =>
    cases exit with
    | ret => exact .inl (h.finish (.value hv))
    | yield => exact h.store hd hv

theorem leads_cleanUp {d d' : Reg} (hd : ρ s.frame.func.name d d') {g g' : Guard}
    (hg : g.Alike (ρ s.frame.func.name) g') {o o' : Outcome} (ho : o.Agree ρ o') :
    State.Leads ρ (cleanUp cfg s d g o) (cleanUp cfg s' d' g' o') := by
  unfold cleanUp
  rw [← hg.cleanup]
  by_cases hnone : g.cleanup = .none
  · rw [if_pos hnone, if_pos hnone]
    exact leads_conclude h hd ho
  · rw [if_neg hnone, if_neg hnone]
    exact .inl (h.enter cfg g.cleanup (.cleanup hd ho))

end

/-- A fault about a register is found behind a guarded section, at once or once its cleanup is done. -/
theorem spoilt_cleanUp (s : State) (d : Reg) (g : Guard) {c : Cause} (hc : c.isAccess = true) :
    (cleanUp cfg s d g (.fault { cause := c })).Spoilt := by
  unfold cleanUp
  by_cases hnone : g.cleanup = .none
  · rw [if_pos hnone]
    exact s.spoilt_fail hc
  · rw [if_neg hnone]
    refine ⟨{ cause := c }, .inr ⟨s.site, d, ?_⟩, hc⟩
    unfold State.enter State.start
    dsimp only
    split
    · split <;> exact List.mem_cons_self
    · exact List.mem_cons_self

variable {o o' : Outcome}

theorem leads_handle (h : s.Abreast ρ s') {d d' : Reg} (hd : ρ s.frame.func.name d d')
    {g g' : Guard} (hg : g.Alike (ρ s.frame.func.name) g') (ho : o.Agree ρ o') :
    State.Leads ρ (handle cfg s d g o) (handle cfg s' d' g' o') := by
  have hclean : ∀ {o o' : Outcome}, o.Agree ρ o' →
      State.Leads ρ (cleanUp cfg s d g o) (cleanUp cfg s' d' g' o') := fun ho =>
    leads_cleanUp h hd hg ho
  unfold handle
  cases ho with
  | value hv => exact hclean (.value hv)
  | @fault f f' hc hp =>
    have hcaught := Fault.agree_caught? hc hp
    dsimp only
    rw [← hg.handler]
    by_cases hnone : g.handler = .none
    · rw [if_pos hnone, if_pos hnone]
      exact hclean (.fault hc hp)
    · rw [if_neg hnone, if_neg hnone]
      generalize f.caught? = v at hcaught ⊢
      generalize f'.caught? = v' at hcaught ⊢
      cases hcaught with
      | none => exact hclean (.fault hc hp)
      | @some v v' hv =>
        have hw := h.frame.write (hg.caught hnone) hv
        dsimp only
        generalize s.frame.write g.caught v = a at hw ⊢
        generalize s'.frame.write g'.caught v' = b at hw ⊢
        cases hw with
        | error he => exact hclean (.fault he rfl)
        | left he => exact .inr (.inl (spoilt_cleanUp s d g he))
        | right he => exact .inr (.inr (spoilt_cleanUp s' d' g' he))
        | @ok fr fr' hfr =>
          obtain ⟨hfr, hfunc⟩ := hfr
          rw [← hfunc] at hd hg
          have habreast : { s with frame := fr }.Abreast ρ { s' with frame := fr' } :=
            ⟨hfr, hfunc ▸ h.site, hfunc ▸ h.stack, h.world⟩
          exact .inl (habreast.enter cfg g.handler (.handler hd hg))

theorem leads_resume (h : s.Abreast ρ s') {after after' : After}
    (ha : after.Agree ρ s.frame.func.name after') (ho : o.Agree ρ o') :
    State.Leads ρ (resume cfg s after o) (resume cfg s' after' o') := by
  cases ha with
  | arm hd => exact leads_conclude h hd ho
  | body hd hg => exact leads_handle h hd hg ho
  | handler hd hg => exact leads_cleanUp h hd hg ho
  | cleanup hd hpending =>
    cases ho with
    | fault hc hp => exact leads_conclude h hd (.fault hc hp)
    | @value v v' exit hv =>
      cases exit with
      | ret => exact .inl (h.finish (.value hv))
      | yield => exact leads_conclude h hd hpending

/-- Steps that lead to states that agree or end the runs in the same way, unless a register could not
be accessed. -/
inductive StepsAgree (ρ : Pairing) : Next → Next → Prop
  | state {s s' : State} (h : s.Agree ρ s') : StepsAgree ρ (.state s) (.state s')
  | left {s : State} {n} (h : s.Spoilt) : StepsAgree ρ (.state s) n
  | right {n} {s' : State} (h : s'.Spoilt) : StepsAgree ρ n (.state s')
  | halt {w} {o o' : Outcome} (h : o.Agree ρ o') : StepsAgree ρ (.halt w o) (.halt w o')
  | crash {w c} : StepsAgree ρ (.crash w c) (.crash w c)

theorem StepsAgree.of_leads (h : State.Leads ρ s s') : StepsAgree ρ (.state s) (.state s') := by
  rcases h with h | h | h
  · exact .state h
  · exact .left h
  · exact .right h

theorem matches_unwind (h : s.Agree ρ s') (ho : o.Agree ρ o') :
    StepsAgree ρ (unwind cfg s o) (unwind cfg s' o') := by
  obtain ⟨fr, site, ended, ⟨ws, n, hn⟩, w⟩ := s
  obtain ⟨fr', site', ended', ⟨ws', n', hn'⟩, w'⟩ := s'
  obtain ⟨hframe, -, -, hstack, hworld⟩ := h
  dsimp only at hframe hstack hworld
  subst hworld
  cases hstack with
  | nil => exact .halt ho
  | within hsite hafter hws =>
    refine .of_leads (leads_resume ?_ hafter ho)
    exact ⟨hframe, hsite, hws, rfl⟩
  | caller hfr hsite hd hws =>
    unfold unwind
    dsimp only [Stack.pop?]
    cases ho with
    | fault hc hp =>
      refine .state (State.Abreast.fail ?_ hc hp)
      exact ⟨hfr, hsite, hws, rfl⟩
    | value hv =>
      refine .of_leads (State.Abreast.store ?_ hd hv)
      exact ⟨hfr, hsite, hws, rfl⟩

/-- The registers of every function can be had. -/
def Startable (p : Program) : Prop :=
  ∀ name f, p.func? name = some f → ∃ fr, Frame.new f = .ok fr

theorem matches_execute (hp : p.Alike ρ p') (hnew : Startable p) (hnew' : Startable p')
    (hcfg : cfg.ClosureFree) (h : s.Abreast ρ s') {x x' : Instr}
    (hx : x.Alike (ρ s.frame.func.name) (SameCaptures (ρ s.frame.func.name)) x') :
    StepsAgree ρ (execute cfg p s x) (execute cfg p' s' x') := by
  have hperform := matches_perform hp h.frame hcfg s.world hx
  have hdef : AllGive (perform cfg.runner p s.frame s.world x).2 _ :=
    wants_perform cfg.runner s.world x
  have hdef' : AllGive (perform cfg.runner p' s'.frame s'.world x').2 _ :=
    wants_perform cfg.runner s'.world x'
  unfold execute
  rw [← h.world] at hdef' ⊢
  generalize perform cfg.runner p s.frame s.world x = a at hperform hdef ⊢
  generalize perform cfg.runner p' s'.frame s.world x' = b at hperform hdef' ⊢
  cases hperform with
  | left hc => exact .left (State.spoilt_fail _ hc)
  | right hc => exact .right (State.spoilt_fail _ hc)
  | @both w a b hab =>
    have habreast : { s with world := w }.Abreast ρ { s' with world := w } :=
      ⟨h.frame, h.site, h.stack, rfl⟩
    cases hab with
    | left hc => exact .left (State.spoilt_fail _ hc)
    | right hc => exact .right (State.spoilt_fail _ hc)
    | error hc => exact .state (habreast.fail hc rfl)
    | ok haction =>
      cases haction with
      | next hfr hfunc => exact .state (habreast.advance hfr hfunc _)
      | leave hv => exact .state (habreast.finish (.value hv))
      | enter hafter => exact .state (habreast.enter cfg _ hafter)
      | @call c c' d d' hc hd =>
        obtain ⟨fr, hfr⟩ := hnew _ _ (hdef _ rfl).1
        obtain ⟨fr', hfr'⟩ := hnew' _ _ (hdef' _ rfl).1
        obtain ⟨t, t', ht, ht', hleads⟩ := habreast.call cfg hc hfr hfr' hd
        dsimp only
        rw [ht, ht']
        exact .of_leads hleads

theorem matches_step (hp : p.Alike ρ p') (hnew : Startable p) (hnew' : Startable p')
    (hcfg : cfg.ClosureFree) (h : s.Agree ρ s') : StepsAgree ρ (step cfg p s) (step cfg p' s') := by
  have hended := h.ended
  cases he : s.ended with
  | some o =>
    rw [he] at hended
    generalize he' : s'.ended = e' at hended
    cases hended with
    | some ho =>
      rw [step_ended he, step_ended he']
      exact matches_unwind h ho
  | none =>
    rw [he] at hended
    generalize he' : s'.ended = e' at hended
    cases hended
    have hsite := h.site he
    have habreast : s.Abreast ρ s' := ⟨h.frame, hsite, h.stack, h.world⟩
    rw [step_running he, step_running he', ← hsite.ip, ← h.world]
    by_cases hneg : s.site.ip.toInt < 0
    · rw [if_pos hneg, if_pos hneg]
      exact .crash
    · rw [if_neg hneg, if_neg hneg]
      have hinstr := hsite.instr?
      generalize s.site.instr? = a at hinstr ⊢
      generalize s'.site.instr? = b at hinstr ⊢
      cases hinstr with
      | some hx => exact matches_execute hp hnew hnew' hcfg habreast hx
      | none =>
        refine .state (habreast.finish (.fault ?_ ?_))
        · rw [Fault.locate_cause, Fault.locate_cause]
          exact .same nofun
        · rw [habreast.location hsite.size]

/-! ## Results -/

/-- Ends of runs that agree: values that do, or faults of the same kind, with the same text and at the
same place, in which values that agree were thrown. -/
inductive Ending.Agree (ρ : Pairing) : Ending → Ending → Prop
  | value {v v'} (h : v.Agree ρ v') : Agree ρ (.value v) (.value v')
  | fault {f f' : Fault} (hcause : f.cause.Agree ρ f'.cause) (hkind : f.kind = f'.kind)
      (htext : f.text = f'.text) (hplace : f.place = f'.place) : Agree ρ (.fault f) (.fault f')
  | crash {c} : Agree ρ (.crash c) (.crash c)
  | unfinished : Agree ρ .unfinished .unfinished

/-- Results that agree up to a pairing, with the same commands issued. -/
structure Result.Agree (ρ : Pairing) (r r' : Result) : Prop where
  calls : r.calls = r'.calls
  ending : r.ending.Agree ρ r'.ending

theorem Ending.agree_fault {f f' : Fault} (hc : f.cause.Agree ρ f'.cause)
    (hp : f.place = f'.place) : Ending.Agree ρ (.fault f) (.fault f') := by
  refine .fault hc hc.kind ?_ hp
  unfold Fault.text Fault.kind
  rw [hc.kind, hc.message, hc.inner?, hp]

theorem Result.agree_ofOutcome (w : World) (ho : o.Agree ρ o') :
    (Result.ofOutcome w o).Agree ρ (.ofOutcome w o') := by
  cases ho with
  | value hv => exact ⟨rfl, .value hv⟩
  | fault hc hp => exact ⟨rfl, Ending.agree_fault hc hp⟩

/-- No run of a program has a fault about a register. -/
def AccessFree (cfg : RunConfig) (p : Program) : Prop := ∀ c, Raises cfg p c → c.isAccess = false

theorem AccessFree.not_spoilt (hfree : AccessFree cfg p) (hs : Reachable cfg p s) : ¬ s.Spoilt := by
  rintro ⟨f, hf, haccess⟩
  rw [hfree _ (.inr ⟨s, hs, f, hf, rfl⟩)] at haccess
  cases haccess

theorem initial_of_main? {f : Func} (hf : p.func? mainName = some f) {fr : Frame}
    (hfr : Frame.new f = .ok fr) : initial p = match fr.writeAll (bindArgs f.paramRegs []) with
      | .error e => .ok (.error e)
      | .ok fr => .ok (.ok (State.start { frame := fr, site := ⟨f.entry, #[], 0⟩ } fr f.entry {})) := by
  unfold initial Program.main?
  rw [hf]
  show (Frame.new f >>= _) = _
  rw [hfr]
  show (match fr.writeAll (bindArgs f.paramRegs []) with
    | .error e => _
    | .ok fr => _) = _
  cases fr.writeAll (bindArgs f.paramRegs []) <;> rfl

section
variable (hp : p.Alike ρ p') (hnew : Startable p) (hnew' : Startable p')
  (hfree : AccessFree cfg p) (hfree' : AccessFree cfg p')

include hp hnew hnew' hfree hfree'

/-- The runs of two programs that are alike start alike. -/
theorem initial_agree :
    (∃ c, initial p = .ok (.error c) ∧ initial p' = .ok (.error c) ∧ ∀ v, c ≠ .thrown v) ∨
      ∃ s s', initial p = .ok (.ok s) ∧ initial p' = .ok (.ok s') ∧ s.Agree ρ s' := by
  rcases hp.func?_cases mainName with ⟨hf, hf'⟩ | ⟨f, f', hf, hf', -, halike⟩
  · unfold initial Program.main?
    rw [hf, hf']
    exact .inl ⟨_, rfl, rfl, nofun⟩
  · obtain ⟨fr, hfr⟩ := hnew _ _ hf
    obtain ⟨fr', hfr'⟩ := hnew' _ _ hf'
    have hcallee : Callee.Agree ρ ⟨f, bindArgs f.paramRegs [], f.entry, (.tooDeepCall · mainName)⟩
        ⟨f', bindArgs f'.paramRegs [], f'.entry, (.tooDeepCall · mainName)⟩ :=
      ⟨halike, hp.unique _, halike.entry, fun n => .same nofun,
        ⟨[], [], _, _, rfl, rfl, by simp, agree_bindArgs halike.paramRegs .nil⟩⟩
    have hw := hcallee.writeAll hfr hfr'
    have hinit := initial_of_main? hf hfr
    have hinit' := initial_of_main? hf' hfr'
    have hok : ∀ c, fr.writeAll (bindArgs f.paramRegs []) ≠ .error c := by
      intro c hc
      rw [hc] at hinit
      have := hfree c (.inl hinit)
      rw [Frame.isAccess_of_writeAll hc] at this
      cases this
    have hok' : ∀ c, fr'.writeAll (bindArgs f'.paramRegs []) ≠ .error c := by
      intro c hc
      rw [hc] at hinit'
      have := hfree' c (.inl hinit')
      rw [Frame.isAccess_of_writeAll hc] at this
      cases this
    dsimp only at hw
    generalize fr.writeAll (bindArgs f.paramRegs []) = a at hw hinit hok
    generalize fr'.writeAll (bindArgs f'.paramRegs []) = b at hw hinit' hok'
    cases hw with
    | error => exact absurd rfl (hok _)
    | left => exact absurd rfl (hok _)
    | right => exact absurd rfl (hok' _)
    | ok hw =>
      refine .inr ⟨_, _, hinit, hinit', ?_⟩
      rw [← halike.entry]
      exact State.agree_start rfl hw f.entry .nil

variable (hcfg : cfg.ClosureFree)

include hcfg

/-- Where no register is in the way, steps agree. -/
theorem steps_agree (hs : Reachable cfg p s) (hs' : Reachable cfg p' s') (h : s.Agree ρ s') :
    (∃ t t', step cfg p s = .state t ∧ step cfg p' s' = .state t' ∧ t.Agree ρ t') ∨
      (∃ w o o', step cfg p s = .halt w o ∧ step cfg p' s' = .halt w o' ∧ o.Agree ρ o') ∨
      ∃ w c, step cfg p s = .crash w c ∧ step cfg p' s' = .crash w c := by
  have hstep := matches_step hp hnew hnew' hcfg h
  generalize hn : step cfg p s = n at hstep ⊢
  generalize hn' : step cfg p' s' = n' at hstep ⊢
  cases hstep with
  | state ht => exact .inl ⟨_, _, rfl, rfl, ht⟩
  | left ht => exact absurd ht (hfree.not_spoilt (.step hs hn))
  | right ht => exact absurd ht (hfree'.not_spoilt (.step hs' hn'))
  | halt ho => exact .inr (.inl ⟨_, _, _, rfl, rfl, ho⟩)
  | crash => exact .inr (.inr ⟨_, _, rfl, rfl⟩)

theorem Ends.agree {r : Result} (hends : Ends cfg p s r) (hs : Reachable cfg p s)
    (hs' : Reachable cfg p' s') (h : s.Agree ρ s') : ∃ r', Ends cfg p' s' r' ∧ r.Agree ρ r' := by
  induction hends generalizing s' with
  | @halt s w o hstep =>
    rcases steps_agree hp hnew hnew' hfree hfree' hcfg hs hs' h with
      ⟨t, t', ht, -, -⟩ | ⟨w', o', o'', ht, ht', ho⟩ | ⟨w', c, ht, -⟩
    · rw [hstep] at ht
      cases ht
    · rw [hstep] at ht
      obtain ⟨rfl, rfl⟩ := Next.halt.inj ht
      exact ⟨_, .halt ht', Result.agree_ofOutcome w ho⟩
    · rw [hstep] at ht
      cases ht
  | @crash s w c hstep =>
    rcases steps_agree hp hnew hnew' hfree hfree' hcfg hs hs' h with
      ⟨t, t', ht, -, -⟩ | ⟨w', o', o'', ht, -, -⟩ | ⟨w', c', ht, ht'⟩
    · rw [hstep] at ht
      cases ht
    · rw [hstep] at ht
      cases ht
    · rw [hstep] at ht
      obtain ⟨rfl, rfl⟩ := Next.crash.inj ht
      exact ⟨_, .crash ht', rfl, .crash⟩
  | @step s t r hstep _ ih =>
    rcases steps_agree hp hnew hnew' hfree hfree' hcfg hs hs' h with
      ⟨u, u', hu, hu', hagree⟩ | ⟨w', o', o'', ht, -, -⟩ | ⟨w', c', ht, -⟩
    · obtain rfl : t = u := Next.state.inj (hstep.symm.trans hu)
      obtain ⟨r', hr', hagree'⟩ := ih (.step hs hstep) (.step hs' hu') hagree
      exact ⟨r', .step hu' hr', hagree'⟩
    · rw [hstep] at ht
      cases ht
    · rw [hstep] at ht
      cases ht

theorem Ends.exists_left {r' : Result} (hends : Ends cfg p' s' r') (hs : Reachable cfg p s)
    (hs' : Reachable cfg p' s') (h : s.Agree ρ s') : ∃ r, Ends cfg p s r := by
  induction hends generalizing s with
  | halt hstep | crash hstep =>
    rcases steps_agree hp hnew hnew' hfree hfree' hcfg hs hs' h with
      ⟨t, t', -, ht', -⟩ | ⟨w', o', o'', ht, -, -⟩ | ⟨w', c', ht, -⟩
    · rw [hstep] at ht'
      cases ht'
    · exact ⟨_, .halt ht⟩
    · exact ⟨_, .crash ht⟩
  | @step s' t' r' hstep _ ih =>
    rcases steps_agree hp hnew hnew' hfree hfree' hcfg hs hs' h with
      ⟨u, u', hu, hu', hagree⟩ | ⟨w', o', o'', ht, -, -⟩ | ⟨w', c', ht, -⟩
    · obtain rfl : t' = u' := Next.state.inj (hstep.symm.trans hu')
      obtain ⟨r, hr⟩ := ih (.step hs hu) (.step hs' hstep) hagree
      exact ⟨r, .step hu hr⟩
    · exact ⟨_, .halt ht⟩
    · exact ⟨_, .crash ht⟩

/-- Programs that are alike have results that agree, if no run of them has a fault about a
register. -/
theorem agree_main : (main cfg p).Agree ρ (main cfg p') := by
  unfold main
  rcases initial_agree hp hnew hnew' hfree hfree' with
    ⟨c, hinit, hinit', hc⟩ | ⟨s, s', hinit, hinit', hagree⟩
  · rw [hinit, hinit']
    exact ⟨rfl, Ending.agree_fault (.same hc) rfl⟩
  · rw [hinit, hinit']
    dsimp only
    cases hrun : s.run cfg p with
    | some r =>
      obtain ⟨r', hends', hr⟩ := Ends.agree hp hnew hnew' hfree hfree' hcfg
        (run_eq_some_iff.mp hrun) (.initial hinit) (.initial hinit') hagree
      rw [hends'.run]
      exact hr
    | none =>
      cases hrun' : s'.run cfg p' with
      | none => exact ⟨rfl, .unfinished⟩
      | some r' =>
        obtain ⟨r, hends⟩ := Ends.exists_left hp hnew hnew' hfree hfree' hcfg
          (run_eq_some_iff.mp hrun') (.initial hinit) (.initial hinit') hagree
        rw [hends.run] at hrun
        cases hrun

end

end Machine

end ScriptMachine
