import Mathlib.Order.Defs.Unbundled
import TableScript.Scope

/-!
# Frames that stay and frames that grow

What a step of a run can do to the scopes is said here once.  `Frame.Kept` is a frame in which only
values of bound names were overwritten; `Frame.Grown` is a frame that may also have gained names and
a new result.  `Scopes.Change top` puts them together: as many frames as before, the same one
current, every other frame kept, and the current one changed as `top` allows.

Main results: each operation on scopes is a change (`change_define`, `change_reassign`,
`change_setResult`), and opening a frame, changing it in any way that `Grown` allows and closing it
again keeps all frames (`Change.closed`).  Only the last consumes a hypothesis, namely that there is
a frame to begin with; scopes that were built by their own operations always have one
(`Built.wellFormed`).
-/

namespace TableScript

/-- Whether a frame was opened by a call. -/
def FrameKind.isCall : FrameKind → Bool
  | .block => false
  | .function _ => true

/-! ### Changes to one frame -/

/-- Nothing happened to a frame, except that names which it binds may have new values. -/
structure Frame.Kept (f f' : Frame) : Prop where
  parent : f'.parent = f.parent
  kind : f'.kind = f.kind
  names : ∀ name, f'.names.contains name ↔ f.names.contains name

/-- A frame lost no name, and is still a block or still a call. -/
structure Frame.Grown (f f' : Frame) : Prop where
  parent : f'.parent = f.parent
  isCall : f'.kind.isCall = f.kind.isCall
  names : ∀ name, f.names.contains name → f'.names.contains name

namespace Frame

variable {f f' f'' : Frame}

theorem Kept.refl (f : Frame) : f.Kept f := ⟨rfl, rfl, fun _ => Iff.rfl⟩

theorem Kept.trans (h : f.Kept f') (h' : f'.Kept f'') : f.Kept f'' where
  parent := h'.parent.trans h.parent
  kind := h'.kind.trans h.kind
  names name := (h'.names name).trans (h.names name)

theorem Grown.trans (h : f.Grown f') (h' : f'.Grown f'') : f.Grown f'' where
  parent := h'.parent.trans h.parent
  isCall := h'.isCall.trans h.isCall
  names name hname := h'.names name (h.names name hname)

instance : IsPreorder Frame Kept where
  refl := Kept.refl
  trans _ _ _ := Kept.trans

instance : IsPreorder Frame Grown where
  refl _ := ⟨rfl, rfl, fun _ => id⟩
  trans _ _ _ := Grown.trans

theorem Kept.grown (h : f.Kept f') : f.Grown f' :=
  ⟨h.parent, by rw [h.kind], fun name => (h.names name).2⟩

end Frame

/-! ### Changes to the scopes -/

/-- The same frames are open and the same one is current; the current one changed as `top` allows,
and every other one is kept. -/
structure Scopes.Change (top : Frame → Frame → Prop) (s s' : Scopes) : Prop where
  depth : s'.depth = s.depth
  current : s'.current = s.current
  outer : ∀ i f, i ≠ s.current → s.frames[i]? = some f → ∃ f', s'.frames[i]? = some f' ∧ f.Kept f'
  top : ∀ f, s.top? = some f → ∃ f', s'.top? = some f' ∧ top f f'

namespace Scopes

variable {top top' : Frame → Frame → Prop} {s s' s'' : Scopes}

theorem Change.refl [IsPreorder Frame top] (s : Scopes) : s.Change top s :=
  ⟨rfl, rfl, fun _ f _ hf => ⟨f, hf, .refl f⟩, fun f hf => ⟨f, hf, refl_of top f⟩⟩

theorem Change.trans [IsPreorder Frame top] (h : s.Change top s') (h' : s'.Change top s'') :
    s.Change top s'' where
  depth := h'.depth.trans h.depth
  current := h'.current.trans h.current
  outer i f hi hf := by
    obtain ⟨f', hf', hkept⟩ := h.outer i f hi hf
    obtain ⟨f'', hf'', hkept'⟩ := h'.outer i f' (h.current ▸ hi) hf'
    exact ⟨f'', hf'', hkept.trans hkept'⟩
  top f hf := by
    obtain ⟨f', hf', hchange⟩ := h.top f hf
    obtain ⟨f'', hf'', hchange'⟩ := h'.top f' hf'
    exact ⟨f'', hf'', trans_of top hchange hchange'⟩

theorem Change.mono (hle : ∀ {f f'}, top f f' → top' f f') (h : s.Change top s') :
    s.Change top' s' where
  depth := h.depth
  current := h.current
  outer := h.outer
  top f hf := by
    obtain ⟨f', hf', hchange⟩ := h.top f hf
    exact ⟨f', hf', hle hchange⟩

/-- Changing one frame in a way that keeps it is a change that keeps all frames. -/
theorem change_modify_kept {i : Nat} {g : Frame → Frame} {f : Frame} (hi : s.frames[i]? = some f)
    (hg : f.Kept (g f)) : s.Change Frame.Kept { s with frames := s.frames.modify i g } := by
  have hframe : ∀ (j : Nat) (f' : Frame), s.frames[j]? = some f' →
      ∃ f'', (s.frames.modify i g)[j]? = some f'' ∧ f'.Kept f'' := by
    intro j f' hj
    rw [Array.getElem?_modify]
    by_cases hij : i = j
    · subst hij
      obtain rfl : f = f' := Option.some.inj (hi.symm.trans hj)
      exact ⟨g f, by simp [hi], hg⟩
    · exact ⟨f', by rw [if_neg hij, hj], .refl f'⟩
  exact ⟨by simp [Scopes.depth], rfl, fun j f' _ hj => hframe j f' hj, fun f' hj => hframe _ f' hj⟩

/-- Changing the current frame as `top` allows is such a change of the scopes. -/
theorem change_modify_top {g : Frame → Frame} (hg : ∀ f, s.top? = some f → top f (g f)) :
    s.Change top { s with frames := s.frames.modify s.current g } where
  depth := by simp [Scopes.depth]
  current := rfl
  outer j f hj hf := by
    refine ⟨f, ?_, .refl f⟩
    rw [Array.getElem?_modify, if_neg (Ne.symm hj), hf]
  top f hf := by
    refine ⟨g f, ?_, hg f hf⟩
    have hf' : s.frames[s.current]? = some f := hf
    simp [top?, Array.getElem?_modify, hf']

theorem change_define (s : Scopes) (name : String) (v : Value) :
    s.Change Frame.Grown (s.define name v) :=
  change_modify_top fun _ _ => ⟨rfl, rfl, fun _ h => Dictionary.contains_insert.2 (.inr h)⟩

/-- A search for the binder of a name ends at a frame that binds it. -/
theorem contains_of_binder? {frames : Array Frame} {name : String} {i j : Nat}
    (h : binder? frames name i = some j) : ∃ f, frames[j]? = some f ∧ f.names.contains name := by
  fun_induction binder? frames name i with
  | case1 => simp at h
  | case2 i f hi hname =>
    obtain rfl : i = j := Option.some.inj h
    exact ⟨f, hi, hname⟩
  | case3 => simp at h
  | case4 i f hi hname p hp hlt ih => exact ih h
  | case5 => simp at h

theorem change_reassign (s : Scopes) (name : String) (v : Value) :
    s.Change Frame.Kept (s.reassign name v).2 := by
  rcases hbinder : s.outerBinder? name with - | i
  · simpa [reassign, hbinder] using Change.refl s
  · -- the name is bound already where it is overwritten, so the set of names stays
    have hfound : ∃ f, s.frames[i]? = some f ∧ f.names.contains name := by
      simp only [outerBinder?, Option.bind_eq_bind, Option.bind_eq_some_iff] at hbinder
      obtain ⟨_, _, p, _, hp⟩ := hbinder
      exact contains_of_binder? hp
    obtain ⟨f, hf, hname⟩ := hfound
    have hkept : f.Kept { f with names := f.names.insert name v } := by
      refine ⟨rfl, rfl, fun other => ?_⟩
      rw [Dictionary.contains_insert]
      exact ⟨fun h => h.elim (fun heq => heq ▸ hname) id, .inr⟩
    simpa [reassign, hbinder, bindAt] using change_modify_kept hf hkept

theorem change_setResult (s : Scopes) (v : Value) : s.Change Frame.Grown (s.setResult v).2 := by
  rcases hresult : s.result? with - | w
  · simpa [setResult, hresult] using Change.refl s
  · -- only a call has a result, so setting it does not make a call out of a block
    have hcall : ∀ f, s.top? = some f → f.kind.isCall = true := by
      intro f hf
      obtain ⟨names, parent, kind⟩ := f
      cases kind with
      | block => simp [result?, hf] at hresult
      | function w' => rfl
    have hgrown : s.Change Frame.Grown
        { s with frames := s.frames.modify s.current fun f => { f with kind := .function v } } :=
      change_modify_top fun f hf => ⟨rfl, (hcall f hf).symm, fun _ => id⟩
    simpa [setResult, hresult] using hgrown

/-! ### Opening and closing a frame -/

/-- Closing a frame that was opened and changed takes the last frame away, and the frame around it is
current again. -/
theorem Change.pop_eq {kind : FrameKind} (hdepth : 0 < s.depth)
    (h : (s.push kind).Change Frame.Grown s') : s'.pop.2 = ⟨s'.frames.pop, s.current⟩ := by
  have hcurrent : s'.current = s.frames.size := h.current
  have hsize : s'.frames.size = s.frames.size + 1 := by
    simpa [Scopes.depth, push] using h.depth
  -- the frame that is closed is the one that was opened, so it still knows its parent
  obtain ⟨f, hf, hgrown⟩ := h.top { parent := some s.current, kind } (by simp [top?, push])
  have hlast : s'.frames.back? = some f := by
    rw [Array.back?_eq_getElem?, hsize, Nat.add_sub_cancel, ← hcurrent]
    exact hf
  have hne : s'.current ≠ 0 := by
    rw [hcurrent]
    exact Nat.ne_of_gt hdepth
  simp [pop, hne, hlast, hgrown.parent]

/-- Whatever happens inside of a new frame, if it leaves the frames outside of it alone, then closing
the frame keeps all frames that were there before it. -/
theorem Change.closed {kind : FrameKind} (hdepth : 0 < s.depth)
    (h : (s.push kind).Change Frame.Grown s') : s.Change Frame.Kept s'.pop.2 := by
  have hsize : s'.frames.size = s.frames.size + 1 := by
    simpa [Scopes.depth, push] using h.depth
  rw [h.pop_eq hdepth]
  have hframe : ∀ (i : Nat) (f : Frame), s.frames[i]? = some f →
      ∃ f', s'.frames.pop[i]? = some f' ∧ f.Kept f' := by
    intro i f hi
    obtain ⟨hlt, -⟩ := Array.getElem?_eq_some_iff.1 hi
    have hpushed : (s.push kind).frames[i]? = some f := by
      simp only [push, Array.getElem?_push]
      rw [if_neg (by omega), hi]
    obtain ⟨f', hf', hkept⟩ := h.outer i f (by simp only [push]; omega) hpushed
    refine ⟨f', ?_, hkept⟩
    rw [Array.getElem?_pop, if_pos (by omega)]
    exact hf'
  refine ⟨?_, rfl, fun i f _ hi => hframe i f hi, fun f hi => hframe _ f hi⟩
  simp [Scopes.depth, hsize]

/-! ### Scopes built by their own operations -/

/-- Scopes that come from the root alone by opening and closing frames, binding names and setting
results. -/
inductive Built : Scopes → Prop
  | fresh : Built fresh
  | push {s : Scopes} (kind : FrameKind) : Built s → Built (s.push kind)
  | pop {s : Scopes} : Built s → Built s.pop.2
  | define {s : Scopes} (name : String) (v : Value) : Built s → Built (s.define name v)
  | reassign {s : Scopes} (name : String) (v : Value) : Built s → Built (s.reassign name v).2
  | setResult {s : Scopes} (v : Value) : Built s → Built (s.setResult v).2

/-- The current frame is the last one, and each frame stands right behind its parent. -/
structure WellFormed (s : Scopes) : Prop where
  current : s.current + 1 = s.depth
  parent : ∀ i f, s.frames[i]? = some f → f.parent = if i = 0 then none else some (i - 1)

theorem WellFormed.of_change (htop : ∀ {f f'}, top f f' → f'.parent = f.parent)
    (hs : s.WellFormed) (h : s.Change top s') : s'.WellFormed where
  current := by rw [h.current, h.depth, hs.current]
  parent i f' hi := by
    have hlt : i < s.frames.size := by
      obtain ⟨hlt, -⟩ := Array.getElem?_eq_some_iff.1 hi
      have hdepth : s'.frames.size = s.frames.size := h.depth
      omega
    have hf : s.frames[i]? = some s.frames[i] := Array.getElem?_eq_getElem hlt
    rw [← hs.parent i _ hf]
    by_cases hcur : i = s.current
    · obtain ⟨f'', hf'', hchange⟩ := h.top s.frames[i] (by rw [top?, ← hcur, hf])
      have hi' : s'.top? = some f' := by rw [top?, h.current, ← hcur]; exact hi
      obtain rfl : f'' = f' := Option.some.inj (hf''.symm.trans hi')
      exact htop hchange
    · obtain ⟨f'', hf'', hkept⟩ := h.outer i _ hcur hf
      obtain rfl : f'' = f' := Option.some.inj (hf''.symm.trans hi)
      exact hkept.parent

theorem wellFormed_fresh : fresh.WellFormed where
  current := rfl
  parent i f hi := by
    rcases i with - | i
    · obtain rfl : ({ parent := none, kind := .block } : Frame) = f := by simpa [fresh] using hi
      rfl
    · simp [fresh] at hi

theorem WellFormed.push (hs : s.WellFormed) (kind : FrameKind) : (s.push kind).WellFormed where
  current := by simp [Scopes.push, depth]
  parent i f hi := by
    simp only [Scopes.push, Array.getElem?_push] at hi
    have hcurrent : s.current + 1 = s.frames.size := hs.current
    split at hi
    · next hlast =>
      obtain rfl := Option.some.inj hi
      rw [if_neg (by omega)]
      simp only [Option.some.injEq]
      omega
    · exact hs.parent i f hi

theorem WellFormed.pop (hs : s.WellFormed) : s.pop.2.WellFormed := by
  have hcurrent : s.current + 1 = s.frames.size := hs.current
  by_cases hroot : s.current = 0
  · simpa [Scopes.pop, hroot] using hs
  · have hlt : s.current < s.frames.size := by omega
    have htop : s.frames[s.current]? = some s.frames[s.current] := Array.getElem?_eq_getElem hlt
    have hlast : s.frames.back? = some s.frames[s.current] := by
      rw [Array.back?_eq_getElem?, ← hcurrent, Nat.add_sub_cancel, htop]
    have hparent : s.frames[s.current].parent = some (s.current - 1) := by
      rw [hs.parent _ _ htop, if_neg hroot]
    have hpop : s.pop.2 = ⟨s.frames.pop, s.current - 1⟩ := by
      simp [Scopes.pop, hroot, hlast, hparent]
    rw [hpop]
    refine ⟨by simp [depth]; omega, fun i f hi => ?_⟩
    rw [Array.getElem?_pop] at hi
    split at hi
    · exact hs.parent i f hi
    · simp at hi

/-- Frames are opened and closed in the order of a stack, so scopes are always in order. -/
theorem Built.wellFormed (h : s.Built) : s.WellFormed := by
  induction h with
  | fresh => exact wellFormed_fresh
  | push kind _ ih => exact ih.push kind
  | pop _ ih => exact ih.pop
  | define name v _ ih => exact ih.of_change (fun h => h.parent) (change_define _ name v)
  | reassign name v _ ih => exact ih.of_change (fun h => h.parent) (change_reassign _ name v)
  | setResult v _ ih => exact ih.of_change (fun h => h.parent) (change_setResult _ v)

theorem Built.depth_pos (h : s.Built) : 0 < s.depth := by
  have hcurrent := h.wellFormed.current
  omega

end Scopes

end TableScript
