import Mathlib.Data.List.FinRange
import ScriptMachine.Proofs.Lowering.FuncShape
import ScriptMachine.Proofs.Renaming.BranchTracking

/-!
# Trees without their lists of captures

Lowering a tree and lowering it without the lists of captures that name only what is bound give linked
functions (`tracks_node`): by induction on the tree, with the law of each construct from the modules
before.

A closure that lists captures makes them ahead of the other side, before its body is lowered. What its body
looks up is then captured on the other side as well.
-/

namespace ScriptMachine

open Build Lowering

section
variable {α β : Type} {L M : Link} {s s' : Builder} {b : BlockId} {S : List String}
  {es es' : List Enclosure} {e e' : Enclosure} {body body' : BlockId → Build (Option Reg)}
  {p p' : Program}

/-! ## Captures -/

theorem lookupOutside_apply (name : String) (h : s.enclosing = e :: es) : lookupOutside name s =
      ((resolve name s.func e.outer es).1, { s with
        func := (resolve name s.func e.outer es).2.1
        enclosing := e :: (resolve name s.func e.outer es).2.2 }) := by
  obtain ⟨p, f, ns, _ | ⟨e', es'⟩, ds⟩ := s
  · cases h
  · cases h
    rfl

theorem lookupOutside_nil (name : String) (h : s.enclosing = []) : lookupOutside name s = (none, s) := by
  obtain ⟨p, f, ns, _ | ⟨e', es'⟩, ds⟩ := s
  · rfl
  · cases h

theorem Linked.enclosing_cases (h : Linked L s s') :
    s.enclosing = [] ∧ s'.enclosing = [] ∨ ∃ e es e' es', s.enclosing = e :: es ∧
      s'.enclosing = e' :: es' ∧ L.Scopes s.func.numRegs (e :: es) (e' :: es') := by
  have hscopes := h.scopes
  rcases hes : s.enclosing with _ | ⟨e, es⟩ <;> rcases hes' : s'.enclosing with _ | ⟨e', es'⟩ <;>
    rw [hes, hes'] at hscopes
  · exact .inl ⟨rfl, rfl⟩
  · cases hscopes.around
  · cases hscopes.around
  · exact .inr ⟨e, es, e', es', rfl, rfl, hscopes⟩

theorem tracks_lookupOutside (h : Linked L s s') (name : String) :
    Tracks L s s' (lookupOutside name) (lookupOutside name) Paired := by
  rcases h.enclosing_cases with ⟨hes, hes'⟩ | ⟨e, es, e', es', hes, hes', hscopes⟩
  · refine ⟨L, .refl L, ?_, ?_⟩ <;> rw [lookupOutside_nil name hes, lookupOutside_nil name hes']
    · exact h
    · exact .none
  · obtain ⟨he, hrest, -, -⟩ := hscopes.uncons
    obtain ⟨M, hLM, hM, hs, hr⟩ := Link.scopes_resolve name h.fits he.outer hrest
    have hf := resolve_grows name s.func e.outer es
    have hf' := resolve_grows name s'.func e'.outer es'
    refine ⟨M, hLM.le, ?_, ?_⟩ <;> rw [lookupOutside_apply name hes, lookupOutside_apply name hes']
    · exact {
        program := h.program
        func := (h.func.congr hf.1 hf.2.1 hf'.1 hf'.2.1).link hLM.le
        fits := hM
        names := h.names.mono hLM.le
        scopes := hscopes.resolved hLM hs }
    · exact hr

theorem tracks_capture (h : Linked L s s') (name : String) {v v' : Value} (hv : v.Alike L.Pairs v') :
    Tracks L s s' (capture name v) (capture name v') fun _ _ _ => True := by
  have hle : s.func.numRegs ≤ s.func.numRegs + 1 := le_of_lt (Int.lt_succ _)
  refine ⟨L.push ⟨s.func.numRegs⟩, L.le_push _, ?_, trivial⟩
  rw [capture_apply, capture_apply]
  refine {
    program := h.program
    func := h.func.newReg.link (L.le_push _)
    fits := h.fits.push h.fits.not_mem_pairs h.fits.not_mem_spare (Int.lt_succ _) hle
    names := h.names.mono (L.le_push _)
    scopes := ?_ }
  rcases h.enclosing_cases with ⟨hes, hes'⟩ | ⟨e, es, e', es', hes, hes', hscopes⟩ <;> rw [hes, hes']
  · exact ⟨.nil, List.nodup_nil, by simp [capturedIn]⟩
  · exact hscopes.capture_both h.fits name hv

theorem tracks_captureName (h : Linked L s s') (pos : Position) (name : String) :
    Tracks L s s' (captureName pos name) (captureName pos name) fun _ _ _ => True := by
  refine (tracks_lookupOutside h name).bind fun M _ hM hr => ?_
  generalize (lookupOutside name s).1 = r at hr
  generalize (lookupOutside name s').1 = r' at hr
  cases hr with
  | some hr => exact tracks_capture hM name (.reg hr)
  | none => exact tracks_capture (hM.complain pos pos _ _) name (Value.alike_string _ name)

theorem tracks_captureListed (h : Linked L s s') (pos : Position) (ns : List String) :
    Tracks L s s' (captureListed pos ns) (captureListed pos ns) fun _ _ _ => True := by
  induction ns generalizing L s s' with
  | nil => exact tracks_pure h trivial
  | cons n ns ih => exact (tracks_captureName h pos n).bind fun _ _ hM _ => ih hM

theorem program_captureName (pos : Position) (name : String) (s : Builder) :
    (captureName pos name s).2.program = s.program := by
  have hlookup : (lookupOutside name s).2.program = s.program := by
    rcases hes : s.enclosing with _ | ⟨e, es⟩
    · rw [lookupOutside_nil name hes]
    · rw [lookupOutside_apply name hes]
  rw [captureName, bind_apply]
  cases (lookupOutside name s).1 with
  | some r =>
    show (capture name (.reg r) (lookupOutside name s).2).2.program = _
    rw [capture_apply, hlookup]
  | none =>
    show (capture name (.string name) (complain pos _ (lookupOutside name s).2).2).2.program = _
    rw [capture_apply]
    exact hlookup

/-- Only the first side captures a name, which stands for something where its closure is created. The
other side has captured nothing under that name. -/
theorem Linked.captureName_ahead (h : Linked L s s') (pos : Position) (name : String)
    (hes : s.enclosing = e :: es) (hes' : s'.enclosing = e' :: es') (hsees : Sees name e.outer es)
    (hnone : e'.bound.get? name = none) : Linked L (captureName pos name s).2 s' := by
  obtain ⟨hfunc, hencl, hnames⟩ := captureName_apply pos name hes
  have hscopes := h.scopes
  rw [hes, hes'] at hscopes
  obtain ⟨-, hrest, -, -⟩ := hscopes.uncons
  obtain ⟨o, ho⟩ := Option.isSome_iff_exists.mp (isSome_resolve hsees s.func)
  have hf := resolve_grows name s.func e.outer es
  have hfits := h.fits.mono hf.1.numRegs
  have htail := hscopes.resolved (.refl L _ es)
    (Link.scopes_resolve_ahead name h.fits hrest)
  have hcapture := htail.capture_ahead hfits hnone (visible_resolve ho)
  refine ⟨program_captureName pos name s ▸ h.program, ?_, ?_, hnames ▸ h.names, ?_⟩
  · rw [hfunc]
    exact h.func.congr (hf.1.trans (Func.extends_newReg _) (by simp)) hf.2.1 (.refl ∅ _) rfl
  · rw [hfunc]
    exact hfits.mono (le_of_lt (Int.lt_succ _))
  · rw [hfunc, hencl, ho, hes']
    exact hcapture

/-- What a closure captures is bound inside of it. -/
theorem isSome_bound_captureName (pos : Position) (name : String) (hes : s.enclosing = e :: es) :
    ∃ e₁ es₁, (captureName pos name s).2.enclosing = e₁ :: es₁ ∧ (e₁.bound.get? name).isSome := by
  obtain ⟨-, hencl, -⟩ := captureName_apply pos name hes
  refine ⟨_, _, hencl, ?_⟩
  show ((e.bound.bind name _).get? name).isSome
  rw [Names.get?_bind, if_pos rfl]
  rfl

theorem names_captureListed (pos : Position) (ns : List String)
    (hes : s.enclosing = e :: es) : (captureListed pos ns s).2.names = s.names := by
  induction ns generalizing s e es with
  | nil => rfl
  | cons n ns ih =>
    obtain ⟨-, hencl, hnames⟩ := captureName_apply pos n hes
    rw [captureListed, bind_apply, ih hencl, hnames]

/-- The names that a closure lists stand for something inside of it. -/
theorem sees_captureListed (pos : Position) (ns : List String)
    (hes : s.enclosing = e :: es) : ∀ name ∈ ns,
      Sees name (captureListed pos ns s).2.names (captureListed pos ns s).2.enclosing := by
  induction ns generalizing s e es with
  | nil => simp
  | cons n ns ih =>
    obtain ⟨e₁, es₁, hencl, hsome⟩ := isSome_bound_captureName pos n hes
    rw [captureListed, bind_apply]
    intro name hname
    rcases List.mem_cons.mp hname with rfl | hname
    · have hgrow := (adds_captureListed (S := ∅) pos ns (captureName pos name s).2).enclosing
      have hn : (captureName pos name s).2.names.Within
          (captureListed pos ns (captureName pos name s).2).2.names := by
        rw [names_captureListed pos ns hencl]
        exact .refl _
      refine Sees.mono hn hgrow ?_
      rw [hencl]
      exact .inr (.inl hsome)
    · exact ih hencl name hname

/-- The first side captures all names of a list, and the other side none. -/
theorem Linked.captureListed_ahead (h : Linked L s s') (pos : Position) (ns : List String)
    (hes : s.enclosing = e :: es)
    (hes' : s'.enclosing = e' :: es') (hsees : ∀ name ∈ ns, Sees name e.outer es)
    (hnone : e'.bound = []) : Linked L (captureListed pos ns s).2 s' := by
  induction ns generalizing s e es with
  | nil => exact h
  | cons n ns ih =>
    have hn := h.captureName_ahead pos n hes hes' (hsees n List.mem_cons_self) (by rw [hnone]; rfl)
    obtain ⟨-, hencl, -⟩ := captureName_apply pos n hes
    have hgrow := (resolve_grows n s.func e.outer es).2.2
    rw [captureListed, bind_apply]
    exact ih hn hencl fun name hname =>
      (hsees name (List.mem_cons_of_mem n hname)).mono (.refl _) hgrow

/-! ## Closures -/

/-- The start of the body of a closure, on both sides. -/
theorem Linked.enclose (h : Linked L s s') : Linked L s.enclose s'.enclose where
  program := h.program
  func := h.func
  fits := h.fits
  names := .nil
  scopes := by
    refine .cons ⟨h.names, nofun, nofun, nofun, nofun, nofun, nofun⟩ h.scopes List.nodup_nil nofun

/-- A closure that is done captured the same on both sides, but for what is spare. -/
theorem Tracks.enclosed {m : Build α} {m' : Build β} {R : Link → α → β → Prop} {B B' : Set BlockId}
    (am : Adds B m) (am' : Adds B' m') (hm : Tracks L s.enclose s'.enclose m m' R)
    (hR : ∀ {M N : Link} {a a'}, M.Le N → R M a a' → R N a a') :
    Tracks L s s' (enclosed m) (enclosed m') fun M x x' => R M x.1 x'.1 ∧ M.Captures x.2 x'.2 := by
  obtain ⟨M, hLM, hM, hres⟩ := hm
  obtain ⟨e, es, hes, houter, -, happ⟩ := enclosed_apply am s
  obtain ⟨e', es', hes', houter', -, happ'⟩ := enclosed_apply am' s'
  have hscopes := hM.scopes
  rw [hes, hes'] at hscopes
  obtain ⟨he, -, -, -⟩ := hscopes.uncons
  have hle := M.le_retire e.captures
  refine ⟨M.retire e.captures, hLM.trans hle, ?_, ?_⟩ <;> rw [happ, happ']
  · exact {
      program := hM.program
      func := hM.func.link hle
      fits := hscopes.fits_retire hM.fits
      names := houter ▸ houter' ▸ he.outer.mono hle
      scopes := hscopes.retire }
  · exact ⟨hR hle hres, hscopes.captures_retire⟩

theorem newRegs_spec (ns : List String) (s : Builder) :
    ns.length = (newRegs ns s).1.length ∧ (newRegs ns s).2.names = s.names ∧
      (newRegs ns s).2.enclosing = s.enclosing := by
  induction ns generalizing s with
  | nil => exact ⟨rfl, rfl, rfl⟩
  | cons n ns ih =>
    obtain ⟨hlen, hnames, hencl⟩ := ih (newReg s).2
    exact ⟨congrArg (· + 1) hlen, hnames, hencl⟩

/-- A closure's body with its parameters bound, but nothing captured. -/
def bindParams (params : List String) : Build (List Reg) := do
  let regs ← newRegs params
  bindAll params regs
  return regs

theorem adds_bindParams {B : Set BlockId} (params : List String) : Adds B (bindParams params) :=
  (adds_newRegs params).bind fun regs => (adds_bindAll params regs).bind fun _ => adds_pure _

theorem enclosing_bindParams (params : List String) (s : Builder) :
    (bindParams params s).2.enclosing = s.enclosing := by
  obtain ⟨names, hbind, -⟩ := bindAll_apply params (newRegs params s).1 (newRegs params s).2
  show (bindAll params (newRegs params s).1 (newRegs params s).2).2.enclosing = _
  rw [hbind]
  exact (newRegs_spec params s).2.2

theorem isSome_bindParams {params : List String} {name : String} (h : name ∈ params) (s : Builder) :
    ((bindParams params s).2.names.get? name).isSome :=
  isSome_bindAll (newRegs_spec params s).1 h _

theorem tracks_bindParams (h : Linked L s s') (params : List String) :
    Tracks L s s' (bindParams params) (bindParams params) fun M rs rs' =>
      List.Forall₂ M.Pairs rs rs' :=
  (tracks_newRegs h params).bind fun M _ hM hrs => ⟨M, .refl M, hM.bindAll params hrs, hrs⟩

theorem closureBody_eq (c : BlockId) (pos : Position) (params captures : List String)
    (body : Build (Option Reg)) : closureBody c pos params captures body =
      bindParams params >>= fun regs => captureListed pos captures >>= fun _ =>
        body >>= fun r => sealBody c r >>= fun _ => pure regs := rfl

/-- What the scope of a closure's body says is bound there. -/
theorem knows_inside (pos : Position) (params captures : List String)
    (hes : s.enclosing = e :: es) (hk : ∀ name ∈ S, Sees name e.outer es) :
    Knows (scopeInside params captures S)
      (captureListed pos captures (bindParams params s).2).2 := by
  have hencl := (enclosing_bindParams params s).trans hes
  have hwithin : (bindParams params s).2.names.Within
      (captureListed pos captures (bindParams params s).2).2.names := by
    rw [names_captureListed pos captures hencl]
    exact .refl _
  have hgrow := (adds_captureListed (S := ∅) pos captures (bindParams params s).2).enclosing
  intro name hname
  rcases List.mem_append.mp hname with hname | hname
  · rcases List.mem_append.mp hname with hname | hname
    · exact sees_of_isSome (hwithin name (isSome_bindParams hname s)) _
    · exact sees_captureListed pos captures hencl name (List.mem_filter.mp hname).1
  · refine Sees.mono hwithin hgrow ?_
    rw [hencl]
    exact .inr (.inr (hk name hname))

/-- Captures that are all bound outside need not be listed. -/
theorem tracks_captures (h : Linked L s s') (pos : Position) (captures : List String)
    (hes : s.enclosing = e :: es) (hes' : s'.enclosing = e' :: es')
    (hk : ∀ name ∈ S, Sees name e.outer es) (hnone : e'.bound = []) :
    Tracks L s s' (captureListed pos captures)
      (captureListed pos (if captures ⊆ S then [] else captures)) fun _ _ _ => True := by
  by_cases hsub : captures ⊆ S
  · rw [if_pos hsub]
    exact ⟨L, .refl L, h.captureListed_ahead pos captures hes hes'
      (fun name hname => hk name (hsub hname)) hnone, trivial⟩
  · rw [if_neg hsub]
    exact tracks_captureListed h pos captures

theorem tracks_closureBody (h : Linked L s s') (hs : s.OpenAt b) (pos : Position)
    (params captures : List String) (hes : s.enclosing = e :: es) (hes' : s'.enclosing = e' :: es')
    (hk : ∀ name ∈ S, Sees name e.outer es) (hnone : e'.bound = [])
    {body body' : Build (Option Reg)}
    (tb : TracksIn b (scopeInside params captures S) body body' Paired) :
    Tracks L s s' (closureBody b pos params captures body)
      (closureBody b pos params (if captures ⊆ S then [] else captures) body')
      fun M rs rs' => List.Forall₂ M.Pairs rs rs' := by
  rw [closureBody_eq, closureBody_eq]
  refine (tracks_bindParams h params).bind fun M _ hM hrs => ?_
  refine (tracks_captures hM pos captures ((enclosing_bindParams params s).trans hes)
    ((enclosing_bindParams params s').trans hes') hk hnone).bind fun N hMN hN _ => ?_
  have hopen : (captureListed pos captures (bindParams params s).2).2.OpenAt b :=
    (hs.grow (adds_bindParams (B := ∅) params s) (by simp)).grow
      (adds_captureListed (S := ∅) pos captures _) (by simp)
  refine (tb hN hopen (knows_inside pos params captures hes hk)).bind fun O hNO hO hr => ?_
  refine (tracks_sealBody hO b hr).bind fun P hOP hP _ => tracks_pure hP ?_
  exact hrs.imp fun _ _ hp => hp.mono ((hMN.trans hNO).trans hOP)

theorem tracks_closure (pos : Position) (params captures : List String)
    (ab : ∀ c, Adds {c} (body c)) (ab' : ∀ c, Adds {c} (body' c))
    (tb : ∀ c, TracksIn c (scopeInside params captures S) (body c) (body' c) Paired) :
    TracksIn b S (closure b pos params captures body)
      (closure b pos params (if captures ⊆ S then [] else captures) body') Paired := by
  intro L s s' h hs hk
  refine (tracks_newBlock h).bind fun M hLM hM hc => ?_
  rw [← hc]
  have hopen : (newBlock s).2.enclose.OpenAt (newBlock s).1 := (openAt_newBlock s).congr rfl
  have hbody := tracks_closureBody hM.enclose hopen pos params captures rfl rfl
    (hk.newBlock) rfl (tb (newBlock s).1)
  refine (hbody.enclosed (adds_closureBody (Set.mem_singleton _) pos params captures (ab _))
    (adds_closureBody (Set.mem_singleton _) pos params _ (ab' _))
    fun hMN hrs => hrs.imp fun _ _ hp => hp.mono hMN).bind fun N hMN hN hx => ?_
  refine tracks_produce hN b fun O d d' hNO hd => ?_
  exact .closureCreate hd (hx.2.mono hNO) (hx.1.imp fun _ _ hp => hp.mono hNO)

/-! ## Functions -/

/-- The link of a function with itself, by the number of its registers. -/
def Link.self (n : Nat) : Link where
  pairs := List.ofFn fun i : Fin n => ⟨i.val⟩

theorem Link.fits_self (n : Nat) : (Link.self n).Fits n n where
  length := by simp [Link.self]
  nodup := by
    refine List.nodup_ofFn_ofInjective fun i j hij => ?_
    exact Fin.ext (Int.ofNat.inj (congrArg Reg.index hij))
  range r hr := by
    obtain ⟨i, rfl⟩ := List.mem_ofFn.mp hr
    exact Int.ofNat_lt.mpr i.isLt
  spare := nofun

theorem Link.pairs_self {n : Nat} {r : Reg} (h0 : 0 ≤ r.index) (hn : r.index < n) :
    (Link.self n).Pairs r r := by
  refine ⟨h0, ?_⟩
  have hlt : r.index.toNat < n := by omega
  have hr : (⟨r.index.toNat⟩ : Reg) = r := congrArg Reg.mk (Int.toNat_of_nonneg h0)
  rw [Link.self, List.getElem?_ofFn, dif_pos hlt, hr]

/-- A new function is linked to itself. -/
theorem Func.alike_new (name : String) (params : List String) :
    (Func.new name params).Alike (Link.self params.length).Pairs (Link.self params.length).Captures
      (Func.new name params) where
  name := rfl
  params := rfl
  paramRegs := by
    refine List.forall₂_same.mpr fun r hr => ?_
    obtain ⟨h0, hn⟩ := new_paramRegs_inRange name params hr
    exact Link.pairs_self h0 (by simpa using hn)
  entry := rfl
  size := rfl
  code b := by
    rw [new_code]
    exact .nil

theorem linked_start (hp : List.Forall₂ Func.Linked p.funcs p'.funcs) (name : String)
    (params : List String) (ds ds' : List Diagnostic) :
    Linked (Link.self params.length) ⟨p, Func.new name params, [], [], ds⟩
      ⟨p', Func.new name params, [], [], ds'⟩ where
  program := hp
  func := Func.alike_new name params
  fits := by
    rw [Func.new_numRegs]
    exact Link.fits_self _
  names := .nil
  scopes := ⟨.nil, List.nodup_nil, by simp [capturedIn]⟩

theorem Linked.linked (h : Linked L s s') : s.func.Linked s'.func := ⟨L, h.fits, h.func⟩

theorem Program.func?_linked (h : List.Forall₂ Func.Linked p.funcs p'.funcs)
    (name : String) : Option.Rel Func.Linked (p.func? name) (p'.func? name) := by
  unfold Program.func?
  generalize p.funcs = fs at h
  generalize p'.funcs = fs' at h
  induction h with
  | nil => exact .none
  | @cons f f' fs fs' hf _ ih =>
    obtain ⟨L, -, halike⟩ := id hf
    rw [List.find?_cons, List.find?_cons, halike.name]
    cases f'.name == name with
    | true => exact .some hf
    | false => exact ih

theorem Program.linked_add (h : List.Forall₂ Func.Linked p.funcs p'.funcs) {f f' : Func}
    (hf : f.Linked f') : List.Forall₂ Func.Linked (p.add f).funcs (p'.add f').funcs := by
  have hname : f.name = f'.name := by
    obtain ⟨L, -, halike⟩ := hf
    exact halike.name
  have hfound := func?_linked h f'.name
  unfold Program.add
  rw [hname]
  generalize p.func? f'.name = o at hfound
  generalize p'.func? f'.name = o' at hfound
  cases hfound with
  | none => exact List.rel_append h (.cons hf .nil)
  | some _ =>
    refine List.forall₂_map_left_iff.mpr (List.forall₂_map_right_iff.mpr (h.imp fun g g' hg => ?_))
    obtain ⟨L, -, halike⟩ := id hg
    rw [halike.name]
    cases g'.name == f'.name with
    | true => exact hf
    | false => exact hg

/-- The body of a function sees its parameters and nothing else. -/
theorem tracks_wholeBody (hp : List.Forall₂ Func.Linked p.funcs p'.funcs) (name : String)
    (params : List String) (ds ds' : List Diagnostic)
    (tb : ∀ c, TracksIn c params (body c) (body' c) Paired) :
    Tracks (Link.self params.length) ⟨p, Func.new name params, [], [], ds⟩
      ⟨p', Func.new name params, [], [], ds'⟩ (wholeBody (Func.new name params) body)
      (wholeBody (Func.new name params) body') fun _ _ _ => True := by
  have hstart := linked_start hp name params ds ds'
  have hregs := (Func.alike_new name params).paramRegs
  refine Tracks.bind (R := fun _ _ _ => True)
    ⟨_, .refl _, hstart.bindAll (Func.new name params).params hregs, trivial⟩ fun M _ hM _ => ?_
  have hopen : (bindAll (Func.new name params).params (Func.new name params).paramRegs
      ⟨p, Func.new name params, [], [], ds⟩).2.OpenAt (Func.new name params).entry := by
    obtain ⟨names, hbind, -⟩ := bindAll_apply (Func.new name params).params
      (Func.new name params).paramRegs ⟨p, Func.new name params, [], [], ds⟩
    rw [hbind]
    exact ⟨Func.new_has_entry name params, by rw [Func.new_code]; rfl⟩
  refine (tb (Func.new name params).entry hM hopen fun n hn => ?_).bind fun N _ hN hr =>
    tracks_sealBody hN _ hr
  refine sees_of_isSome (isSome_bindAll ?_ ?_ _) _
  · rw [Func.new_paramRegs_length, Func.new_params]
  · rwa [Func.new_params]

theorem tracks_function (h : Linked L s s') (pos : Position) (name : String) (params : List String)
    (tb : ∀ c, TracksIn c params (body c) (body' c) Paired) :
    Tracks L s s' (Lowering.function pos name params body) (Lowering.function pos name params body')
      fun _ _ _ => True := by
  unfold Lowering.function
  by_cases hname : name = mainName ∨ name = ""
  · rw [if_pos hname, if_pos hname]
    exact ⟨L, .refl L, h.complain pos pos _ _, trivial⟩
  · rw [if_neg hname, if_neg hname]
    obtain ⟨M, -, hM, -⟩ := tracks_wholeBody h.program name params s.diags s'.diags tb
    refine ⟨L, .refl L, ?_, trivial⟩
    rw [function_apply, function_apply]
    exact { h with program := Program.linked_add hM.program hM.linked }

/-! ## Nodes -/

mutual

/-- A node and what it is without its lists of captures. -/
theorem tracks_node (b : BlockId) (x : Node) {p : Place} (hx : x.exitsPlaced p = true)
    (S : List String) : TracksIn b S (node b x) (node b (x.bare S)) Paired := by
  intro L s s' h hs hk
  cases x with
  | absent =>
    rw [Node.bare, node]
    · exact tracks_pure h .none
    all_goals nofun
  | program _ xs | list _ xs =>
    rw [Node.exitsPlaced] at hx
    rw [Node.bare, node, node]
    exact tracks_stmts b xs hx S h hs hk .none
  | number pos text =>
    rw [Node.bare, node]
    · exact (tracks_number h pos text).bind fun M _ hM hv => tracks_constant hM b hv
    all_goals nofun
  | string _ str =>
    rw [Node.bare, node]
    · exact tracks_constant h b (Value.alike_string _ str)
    all_goals nofun
  | word _ name =>
    rw [Node.bare, node]
    · exact tracks_word h b name
    all_goals nofun
  | other pos type =>
    rw [Node.bare, node]
    · exact tracks_degrade h b pos pos _ _
    all_goals nofun
  | assign pos name value =>
    rw [Node.exitsPlaced] at hx
    rw [Node.bare, node, node]
    exact tracks_assign b name (tracks_node b value hx S h hs hk)
  | func pos name params body =>
    rw [Node.exitsPlaced] at hx
    rw [Node.bare, node, node]
    refine (tracks_function h pos name params fun c => tracks_node c body hx params).bind
      fun M _ hM _ => tracks_pure hM .none
  | call pos callee xs =>
    rw [Node.exitsPlaced, Bool.and_eq_true] at hx
    rw [Node.bare, node, node]
    exact tracks_call pos (callee.allows_flow .value hx.1) (adds_node b callee)
      (fun u hu => leaves_node b callee hx.1 hu) (tracks_node b callee hx.1 S)
      (tracks_args b xs hx.2 (S ++ callee.binds)) h hs hk
  | command pos name xs line =>
    rw [Node.exitsPlaced] at hx
    rw [Node.bare, node, node]
    exact tracks_command h b pos name line (tracks_args b xs hx S h hs hk)
  | invoke pos name xs =>
    rw [Node.exitsPlaced] at hx
    rw [Node.bare, node, node]
    exact tracks_issue b name [] (tracks_args b xs hx S h hs hk)
  | closure pos params captures body =>
    rw [Node.exitsPlaced] at hx
    rw [Node.bare, node, node]
    exact tracks_closure pos params captures (fun c => adds_node c body) (fun c => adds_node c _)
      (fun c => tracks_node c body hx _) h hs hk
  | binary pos left op right =>
    rw [Node.exitsPlaced, Bool.and_eq_true] at hx
    have hleft : left.flow = .live := left.allows_flow .value hx.1
    rw [Node.bare, node, node]
    exact tracks_binary pos op (adds_node b left)
      (fun u hu => (leaves_node b left hx.1 hu).of_live hleft) (tracks_node b left hx.1 S)
      (tracks_node b right hx.2 _) h hs hk
  | choice pos scrutinee cs default =>
    rw [Node.exitsPlaced, Bool.and_eq_true, Bool.and_eq_true] at hx
    have hscrutinee : scrutinee.flow = .live := scrutinee.allows_flow .value hx.1.1
    rw [Node.bare, node, node]
    exact tracks_choice pos (adds_node b scrutinee)
      (fun u hu => (leaves_node b scrutinee hx.1.1 hu).of_live hscrutinee)
      (tracks_node b scrutinee hx.1.1 S) (makes_cases pos {} cs).adds
      (fun u => (offering_cases pos cs hx.1.2 {} false u).names) (tracks_cases pos cs hx.1.2 _) default
      (fun c => tracks_node c default hx.2 _) h hs hk
  | guarded pos body cs cleanup =>
    rw [Node.exitsPlaced, Bool.and_eq_true, Bool.and_eq_true] at hx
    have hclauses := fun r u => offering_clauses pos r cs hx.1.2 {} false u
    rw [Node.bare, node, node, guarded_eq, guarded_eq]
    refine (tracks_guardedSections h hk b (fun c => adds_node c body)
      (fun c => tracks_node c body hx.1.1 S) cs
      fun h hk hr ha => tracks_clauses pos cs hx.1.2 S h hk hr ha).bind fun M _ hM hsec => ?_
    have hgrow := adds_guardedSections (b := b) (fun c => adds_node c body) cs
      (fun r => makes_clauses pos r {} cs) s
    obtain ⟨hwithin, hnames⟩ := names_guardedSections b
      (fun c u hu => leaves_node c body hx.1.1 hu) cs (fun r => makes_clauses pos r {} cs)
      (fun hnil => by rw [hnil, Node.bindsOfClauses]) hclauses s
    refine (tracks_ending hM ((hk.grow hgrow hwithin).append hnames) cleanup
      fun c => tracks_node c cleanup hx.2 _).bind fun N hMN hN hlast => ?_
    obtain ⟨hbody, hhandler, hcaught⟩ := hsec
    refine tracks_produce hN b fun O d d' hNO hd => .guarded hd ⟨hbody, hhandler, hlast, fun hne => ?_⟩
    exact (hcaught hne).mono (hMN.trans hNO)
  | ret pos value =>
    rw [Node.exitsPlaced, Bool.and_eq_true] at hx
    rw [Node.bare, node, node]
    refine (tracks_node b value hx.2 S h hs hk).bind fun M _ hM hr => ?_
    exact (tracks_leave hM b hr.alike_operand).bind fun N _ hN _ => tracks_pure hN .none
  | throw pos value =>
    rw [Node.exitsPlaced, Bool.and_eq_true] at hx
    rw [Node.bare, node, node]
    refine (tracks_node b value hx.2 S h hs hk).bind fun M _ hM hr => ?_
    exact (tracks_emit hM b (.leave hr.alike_operand)).bind fun N _ hN _ => tracks_pure hN .none

theorem tracks_stmts (b : BlockId) (xs : List Node) {p : Place} (hxs : Node.allPlaced p xs = true)
    (S : List String) {last last' : Option Reg} {L : Link} {s s' : Builder} (h : Linked L s s')
    (hs : s.OpenAt b) (hk : Knows S s) (hlast : Paired L last last') :
    Tracks L s s' (stmts b last xs) (stmts b last' (Node.bareAll S xs)) Paired := by
  cases xs with
  | nil =>
    rw [Node.bareAll, stmts, stmts]
    exact tracks_pure h hlast
  | cons x xs =>
    rw [Node.allPlaced, Bool.and_eq_true] at hxs
    rw [Node.bareAll, stmts, stmts]
    refine (tracks_node b x hxs.1 S h hs hk).bind fun M _ hM hr => ?_
    refine (tracks_terminated hM b).bind fun N hMN hN ht => ?_
    rw [← ht]
    cases hopen : (terminated b (node b x s).2).1 with
    | true => exact tracks_pure hN (hr.mono hMN)
    | false =>
      have hat : (node b x s).2.OpenAt b := ⟨(adds_node b x s).func.has hs.has, by
        rwa [terminated_apply] at hopen⟩
      exact tracks_stmts b xs hxs.2 (S ++ x.binds) hN hat
        (hk.leave (leaves_node b x hxs.1 hs) (adds_node b x s)) (hr.mono hMN)

theorem tracks_args (b : BlockId) (xs : List Node) (hxs : Node.allPlaced .value xs = true)
    (S : List String) : TracksIn b S (args b xs) (args b (Node.bareAll S xs)) PairedAll := by
  intro L s s' h hs hk
  cases xs with
  | nil =>
    rw [Node.bareAll, args]
    exact tracks_pure h .nil
  | cons x xs =>
    rw [Node.allPlaced, Bool.and_eq_true] at hxs
    have hlive : x.flow = .live := x.allows_flow .value hxs.1
    have hx := leaves_node b x hxs.1 hs
    rw [Node.bareAll, args, args]
    refine (tracks_node b x hxs.1 S h hs hk).bind fun M _ hM hr => ?_
    refine (tracks_args b xs hxs.2 _ hM (hx.open_at hlive) (hk.leave hx (adds_node b x s))).bind
      fun N hMN hN hvs => ?_
    exact tracks_pure hN (.cons (hr.mono hMN).alike_operand hvs)

theorem tracks_cases (pos : Position) (cs : List Case) (hcs : Node.casesPlaced cs = true)
    (S : List String) : GathersIn S (cases pos · cs) (cases pos · (Node.bareCases S cs)) := by
  intro L s s' a a' h hk ha
  show Tracks L s s' (cases pos a cs) (cases pos a' (Node.bareCases S cs)) _
  cases cs with
  | nil =>
    rw [Node.bareCases, cases, cases]
    exact tracks_pure h ha
  | cons c cs =>
    obtain ⟨p, body⟩ := c
    rw [Node.casesPlaced, Bool.and_eq_true] at hcs
    rw [Node.bareCases, cases, cases]
    refine (tracks_addCase h hk pos p ha fun c => tracks_node c body hcs.1 S).bind fun M _ hM ha => ?_
    have hgrow := (makes_addCase pos a p fun c => adds_node c body).adds s
    have hnames := (offering_addCase (fun c u hu => leaves_node c body hcs.1 hu)
      (fun c => adds_node c body) pos p a false s).names
    exact tracks_cases pos cs hcs.2 S hM (hk.grow hgrow (hnames ▸ .refl _)) ha

theorem tracks_clauses (pos : Position) (cs : List Clause) (hcs : Node.clausesPlaced cs = true)
    (S : List String) {L : Link} {s s' : Builder} {r r' : Reg} {a a' : Arms} (h : Linked L s s')
    (hk : Knows S s) (hr : L.Pairs r r') (ha : a.Alike L a') :
    Tracks L s s' (clauses pos r a cs) (clauses pos r' a' (Node.bareClauses S cs))
      fun M a a' => a.Alike M a' := by
  cases cs with
  | nil =>
    rw [Node.bareClauses, clauses, clauses]
    exact tracks_pure h ha
  | cons c cs =>
    obtain ⟨name, p, body⟩ := c
    rw [Node.clausesPlaced, Bool.and_eq_true] at hcs
    rw [Node.bareClauses, clauses, clauses]
    refine (tracks_addClause h hk pos hr name p ha
      fun c => tracks_node c body hcs.1 _).bind fun M hLM hM ha => ?_
    have hgrow := (makes_addClause pos r a name p fun c => adds_node c body).adds s
    have hnames := (offering_addClause (fun c u hu => leaves_node c body hcs.1 hu)
      (fun c => adds_node c body) pos r name p a false s).names
    exact tracks_clauses pos cs hcs.2 S hM (hk.grow hgrow (hnames ▸ .refl _)) (hr.mono hLM) ha

end

end

end ScriptMachine
