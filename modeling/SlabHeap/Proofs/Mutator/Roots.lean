/-
  The roots of a program, step by step.

  A `RootView` is what a program knows of its roots: the frames that live, with their
  places and words, and the words that it registered.  `RootView.after` and
  `RootView.answer` say what each step of a program makes of it and returns.  A root set
  `Shows` a view if its frames are linked in the order of the view and the same words are
  registered; every step keeps that (`RootStep.run_shows`), whatever the places that the
  program chooses for its frames, and so does every program (`shows_rootsAfter`).
-/
import SlabHeap.Mutator.Handle
import SlabHeap.Proofs.Mutator.Frames
import Mathlib.Data.Finset.Basic

namespace SlabHeap

/-- The live frames, innermost first, each with its place and its words, and the
    registered words. -/
structure RootView where
  frames : List (Nat × List Word)
  extra : Finset Word

/-- A step of a program that concerns its roots.  Frames go by their places. -/
inductive RootStep where
  | push (place : Nat) (slots : List Word)
  | release (place : Nat)
  | write (place index : Nat) (w : Word)
  | add (w : Word)
  | remove (w : Word)

/-! ## What a program knows -/

namespace RootView

/-- The program without roots. -/
def empty : RootView := ⟨[], ∅⟩

/-- The places of the live frames. -/
def places (v : RootView) : List Nat :=
  v.frames.map Prod.fst

/-- The words of the live frame at a place. -/
def slots (v : RootView) (place : Nat) : List Word :=
  ((v.frames.find? (·.1 = place)).map Prod.snd).getD []

/-- The view after a step. -/
def after (v : RootView) : RootStep → RootView
  | .push place slots => { v with frames := (place, slots) :: v.frames }
  | .release place => if v.places.head? = some place then { v with frames := v.frames.tail } else v
  | .write place index w =>
    { v with frames := v.frames.map fun f => if f.1 = place then (f.1, f.2.set index w) else f }
  | .add w => { v with extra := insert w v.extra }
  | .remove w => { v with extra := v.extra.erase w }

/-- What a step returns: whether it changed the registered words, if it is about these. -/
def answer (v : RootView) : RootStep → Except Fault (Option Bool)
  | .push _ _ => .ok none
  | .release place => if v.places.head? = some place then .ok none else .error .frameOrder
  | .write place index _ =>
    if index < (v.slots place).length then .ok none
    else .error (.indexOutOfBounds (v.slots place).length index)
  | .add w => .ok (some (decide (w ∉ v.extra)))
  | .remove w => .ok (some (decide (w ∈ v.extra)))

end RootView

namespace RootStep

/-- A new frame stands where no live frame does, and only live frames are written to. -/
def Fits (v : RootView) : RootStep → Prop
  | push place _ => place ∉ v.places
  | write place _ _ => place ∈ v.places
  | _ => True

/-- The step as an action. -/
def run : RootStep → Action RootSet (Option Bool)
  | push place slots => do
    RootSet.onStack (ShadowStack.pushAt place slots)
    return none
  | release place => do
    RootSet.onStack (ShadowStack.releaseAt place)
    return none
  | write place index w => do
    RootSet.onStack (ShadowStack.write place index w)
    return none
  | add w => do
    return some (← RootSet.addRoot w)
  | remove w => do
    return some (← RootSet.delRoot w)

/-- The roots after a step, whether it returns or fails. -/
def after (step : RootStep) (r : RootSet) : RootSet :=
  match step.run r with
  | .ok _ r' => r'
  | .error _ r' => r'

end RootStep

/-- What a program knows after steps, the last one first. -/
def viewAfter : List RootStep → RootView
  | [] => .empty
  | step :: past => (viewAfter past).after step

/-- The roots after steps, the last one first. -/
def rootsAfter : List RootStep → RootSet
  | [] => .empty
  | step :: past => step.after (rootsAfter past)

/-- Each of the steps fits what the program knew before it. -/
def AllFit : List RootStep → Prop
  | [] => True
  | step :: past => step.Fits (viewAfter past) ∧ AllFit past

/-! ## What the root set shows -/

/-- The frames of the view are linked in their order, and its words are registered. -/
structure RootSet.Shows (r : RootSet) (v : RootView) : Prop where
  chain : ShadowStack.Chain r.stack.memory r.stack.head v.frames
  extra : ∀ w, w ∈ r.extra.words ↔ w ∈ v.extra

variable {v : RootView} {r : RootSet} {step : RootStep} {place : Nat} {slots : List Word}

theorem RootSet.shows_empty : RootSet.empty.Shows .empty :=
  ⟨.nil, fun w => ⟨fun hw => absurd hw List.not_mem_nil,
    fun hw => absurd hw (Finset.notMem_empty w)⟩⟩

/-- Live frames stand at places of their own, so a place tells the words of its frame. -/
theorem RootView.slots_eq (hnodup : v.places.Nodup) (hmem : (place, slots) ∈ v.frames) :
    v.slots place = slots := by
  obtain ⟨frames, extra⟩ := v
  show ((frames.find? (·.1 = place)).map Prod.snd).getD [] = slots
  change (place, slots) ∈ frames at hmem
  change (frames.map Prod.fst).Nodup at hnodup
  induction frames with
  | nil => cases hmem
  | cons f frames ih =>
    obtain ⟨hout, hnodup⟩ := List.nodup_cons.1 hnodup
    rcases List.mem_cons.1 hmem with rfl | hmem
    · simp
    · have hne : f.1 ≠ place := fun heq => hout (List.mem_map.2 ⟨_, hmem, heq.symm⟩)
      rw [List.find?_cons_of_neg (by simpa using hne)]
      exact ih hmem hnodup

/-- A write behind the last slot of a frame is no write. -/
theorem RootView.after_write_of_le {index : Nat} {w : Word} (hnodup : v.places.Nodup)
    (hmem : (place, slots) ∈ v.frames) (hle : slots.length ≤ index) :
    v.after (.write place index w) = v := by
  have hsame : ∀ f ∈ v.frames, (if f.1 = place then (f.1, f.2.set index w) else f) = f := by
    rintro ⟨other, slots'⟩ hf
    split
    next heq =>
      have heq : other = place := heq
      subst heq
      obtain rfl := (RootView.slots_eq hnodup hf).symm.trans (RootView.slots_eq hnodup hmem)
      exact Prod.ext rfl (List.set_eq_of_length_le hle)
    next => rfl
  rw [RootView.after, List.map_congr_left hsame, List.map_id']

theorem ExtraRoots.add_fst (r : ExtraRoots) (w : Word) : (r.add w).1 = decide (w ∉ r.words) := by
  by_cases hw : w ∈ r.words <;> simp [add, hw]

/-! ## Steps -/

namespace RootStep

/-- A step returns what the program expects of it and leads to the roots that it expects,
    or fails as it expects and changes nothing. -/
theorem run_meets (hs : r.Shows v) (hfit : step.Fits v) :
    Meets step.run r (fun b r' => v.answer step = .ok b ∧ r'.Shows (v.after step))
      fun fault r' => v.answer step = .error fault ∧ r' = r ∧ v.after step = v := by
  cases step with
  | push place slots =>
    simp only [run, RootSet.onStack, meets_bind, meets_zoom, meets_pure]
    refine (hs.chain.pushAt_returns hfit).meets ?_
    rintro - stack hchain
    exact ⟨rfl, hchain, hs.extra⟩
  | release place =>
    simp only [run, RootSet.onStack, meets_bind, meets_zoom, meets_pure]
    refine hs.chain.releaseAt_meets.mono ?_ ?_
    · rintro - stack ⟨hinner, hchain⟩
      have hinner : v.places.head? = some place := hinner
      rw [RootView.answer, RootView.after, if_pos hinner, if_pos hinner]
      exact ⟨rfl, hchain, hs.extra⟩
    · rintro - stack ⟨hother, rfl, rfl⟩
      have hother : v.places.head? ≠ some place := hother
      rw [RootView.answer, RootView.after, if_neg hother, if_neg hother]
      exact ⟨rfl, rfl, rfl⟩
  | write place index w =>
    obtain ⟨⟨_, slots⟩, hmem, rfl⟩ := List.mem_map.1 hfit
    have hslots := RootView.slots_eq hs.chain.nodup hmem
    simp only [run, RootSet.onStack, meets_bind, meets_zoom, meets_pure]
    refine (hs.chain.write_meets hmem).mono ?_ ?_
    · rintro - stack ⟨hlt, hchain⟩
      rw [RootView.answer, hslots, if_pos hlt]
      exact ⟨rfl, hchain, hs.extra⟩
    · rintro - stack ⟨hge, rfl, rfl⟩
      rw [RootView.answer, hslots, if_neg hge]
      refine ⟨rfl, rfl, RootView.after_write_of_le hs.chain.nodup hmem (Nat.le_of_not_lt hge)⟩
  | add w =>
    simp only [run, RootSet.addRoot, meets_bind, meets_get, meets_set, meets_pure]
    refine ⟨?_, hs.chain, fun x => ?_⟩
    · simp [RootView.answer, ExtraRoots.add_fst, hs.extra]
    · rw [ExtraRoots.mem_add, hs.extra, RootView.after, Finset.mem_insert]
  | remove w =>
    simp only [run, RootSet.delRoot, meets_bind, meets_get, meets_set, meets_pure]
    refine ⟨?_, hs.chain, fun x => ?_⟩
    · simp [RootView.answer, ExtraRoots.remove, hs.extra]
    · rw [ExtraRoots.mem_remove, hs.extra, RootView.after, Finset.mem_erase]

end RootStep

theorem shows_rootsAfter {past : List RootStep} (hfit : AllFit past) :
    (rootsAfter past).Shows (viewAfter past) := by
  induction past with
  | nil => exact RootSet.shows_empty
  | cons step past ih =>
    have hstep := RootStep.run_meets (ih hfit.2) hfit.1
    show (step.after (rootsAfter past)).Shows ((viewAfter past).after step)
    rw [RootStep.after]
    split
    next hrun => exact (hstep.of_ok hrun).2
    next hrun =>
      obtain ⟨-, hr, hv⟩ := hstep.of_error hrun
      rw [hr, hv]
      exact ih hfit.2

theorem roots_are_live_words {past : List RootStep} (hfit : AllFit past) :
    (∃ ws : List Word, ws.Nodup ∧ (∀ w, w ∈ ws ↔ w ∈ (viewAfter past).extra) ∧
      (rootsAfter past).words = (viewAfter past).frames.flatMap Prod.snd ++ ws ∧
      ∀ (arena : Arena) (stack : ShadowStack) (fs : List (Nat × List Word)),
        ShadowStack.Chain stack.memory stack.head fs →
        (Handle.mk arena (rootsAfter past).extra).roots stack = fs.flatMap Prod.snd ++ ws) ∧
    (rootsAfter past).stack.depth = (viewAfter past).frames.length ∧
    ((rootsAfter past).stack.head = none ↔ (viewAfter past).frames = []) ∧
    ∀ step : RootStep, step.Fits (viewAfter past) → Meets step.run (rootsAfter past)
      (fun b r' => (viewAfter past).answer step = .ok b ∧ r' = rootsAfter (step :: past))
      fun fault r' => (viewAfter past).answer step = .error fault ∧ r' = rootsAfter past := by
  have hs := shows_rootsAfter hfit
  refine ⟨⟨(rootsAfter past).extra.words, (rootsAfter past).extra.nodup, hs.extra, ?_, ?_⟩,
    hs.chain.depth_eq, hs.chain.head_eq_none, fun step hstep => ?_⟩
  · rw [RootSet.words, hs.chain.words_eq]
  · intro arena stack fs hchain
    rw [Handle.roots, hchain.words_eq]
    rfl
  · refine ((step.run_meets hs hstep).and meets_self).mono ?_ ?_
    · rintro b r' ⟨⟨hanswer, -⟩, hrun⟩
      refine ⟨hanswer, ?_⟩
      rw [rootsAfter, RootStep.after, hrun]
    · rintro fault r' ⟨⟨hanswer, rfl, -⟩, -⟩
      exact ⟨hanswer, rfl⟩

/-- Two frames, the outer one at the higher place and written to last.  It is not the
    innermost, so the attempt to release it fails. -/
theorem roots_are_live_words_of_two :
    AllFit [.write 7 1 5, .add 9, .push 3 [4], .push 7 [1, 2]] ∧
    (∃ ws : List Word, ws.Nodup ∧ (∀ w, w ∈ ws ↔ w = 9) ∧
      (rootsAfter [.write 7 1 5, .add 9, .push 3 [4], .push 7 [1, 2]]).words = [4, 1, 5] ++ ws) ∧
    (rootsAfter [.write 7 1 5, .add 9, .push 3 [4], .push 7 [1, 2]]).stack.depth = 2 ∧
    Meets (RootStep.release 7).run (rootsAfter [.write 7 1 5, .add 9, .push 3 [4], .push 7 [1, 2]])
      (fun _ _ => False) fun fault r' => fault = .frameOrder ∧
        r' = rootsAfter [.write 7 1 5, .add 9, .push 3 [4], .push 7 [1, 2]] := by
  have hfit : AllFit [.write 7 1 5, .add 9, .push 3 [4], .push 7 [1, 2]] := by
    simp [AllFit, RootStep.Fits, viewAfter, RootView.after, RootView.places, RootView.empty]
  obtain ⟨⟨ws, hnodup, hmem, hwords, -⟩, hdepth, -, hsteps⟩ := roots_are_live_words hfit
  have hview : viewAfter [.write 7 1 5, .add 9, .push 3 [4], .push 7 [1, 2]] =
    ⟨[(3, [4]), (7, [1, 5])], {9}⟩ := rfl
  rw [hview] at hmem hwords hdepth hsteps
  refine ⟨hfit, ⟨ws, hnodup, fun w => (hmem w).trans Finset.mem_singleton, hwords⟩, hdepth, ?_⟩
  refine (hsteps (.release 7) trivial).mono ?_ ?_
  · rintro b r' ⟨hanswer, -⟩
    cases hanswer
  · rintro fault r' ⟨hanswer, hr⟩
    cases hanswer
    exact ⟨rfl, hr⟩

end SlabHeap
