/-
  Actions that end alike.

  `Alike R x y s s'`: the action `x` from the state `s` and the action `y` from `s'` both
  return, and the same value, or both fail, and with the same fault; and the states that
  they reach are related by `R`.  The lemmas `alike_…` follow two actions side by side along
  their parts.  What is known of a part of the left one alone, is at hand behind it
  (`alike_bind`), and in loops (`alike_forM`).
-/
import SlabHeap.Proofs.Action

namespace SlabHeap

variable {σ τ α β ι : Type}

/-- From `s` and `s'`, the actions end in the same way, with the same answer, and in related
    states. -/
def Alike (R : σ → σ → Prop) (x y : Action σ α) (s s' : σ) : Prop :=
  match x s, y s' with
  | .ok a t, .ok a' t' => a = a' ∧ R t t'
  | .error f t, .error f' t' => f = f' ∧ R t t'
  | _, _ => False

variable {R : σ → σ → Prop} {x y : Action σ α} {s s' : σ}

theorem Alike.mono {R' : σ → σ → Prop} (h : Alike R x y s s') (hR : ∀ t t', R t t' → R' t t') :
    Alike R' x y s s' := by
  unfold Alike at *
  cases hx : x s <;> cases hy : y s' <;> rw [hx, hy] at h
  · exact ⟨h.1, hR _ _ h.2⟩
  · exact h
  · exact h
  · exact ⟨h.1, hR _ _ h.2⟩

theorem alike_refl : Alike Eq x x s s := by
  unfold Alike
  cases x s <;> exact ⟨rfl, rfl⟩

/-- A third action ends like the second one. -/
theorem Alike.trans {R' R'' : σ → σ → Prop} {z : Action σ α} {s'' : σ} (h : Alike R x y s s')
    (h' : Alike R' y z s' s'') (hR : ∀ t t' t'', R t t' → R' t' t'' → R'' t t'') :
    Alike R'' x z s s'' := by
  unfold Alike at *
  cases hx : x s <;> cases hy : y s' <;> cases hz : z s'' <;> rw [hx, hy] at h <;>
    rw [hy, hz] at h'
  · exact ⟨h.1.trans h'.1, hR _ _ _ h.2 h'.2⟩
  · exact h'
  · exact h.elim
  · exact h.elim
  · exact h.elim
  · exact h.elim
  · exact h'.elim
  · exact ⟨h.1.trans h'.1, hR _ _ _ h.2 h'.2⟩

/-- Where the left action returns, the right one does. -/
theorem Alike.of_ok {a : α} {t : σ} (h : Alike R x y s s') (hx : x s = .ok a t) :
    ∃ t', y s' = .ok a t' ∧ R t t' := by
  unfold Alike at h
  rw [hx] at h
  cases hy : y s' <;> rw [hy] at h
  · obtain ⟨rfl, hR⟩ := h
    exact ⟨_, rfl, hR⟩
  · exact h.elim

/-- Where the left action fails, the right one does. -/
theorem Alike.of_error {f : Fault} {t : σ} (h : Alike R x y s s') (hx : x s = .error f t) :
    ∃ t', y s' = .error f t' ∧ R t t' := by
  unfold Alike at h
  rw [hx] at h
  cases hy : y s' <;> rw [hy] at h
  · exact h.elim
  · obtain ⟨rfl, hR⟩ := h
    exact ⟨_, rfl, hR⟩

/-- An action that ends alike with itself from a state ends in a state related to itself. -/
theorem Alike.meets (h : Alike R x y s s') :
    Meets x s (fun _ t => ∃ t', R t t') fun _ t => ∃ t', R t t' := by
  refine meets_self.mono (fun a t hx => ?_) fun f t hx => ?_
  · obtain ⟨t', -, hR⟩ := h.of_ok hx
    exact ⟨t', hR⟩
  · obtain ⟨t', -, hR⟩ := h.of_error hx
    exact ⟨t', hR⟩

/-! ## Straight-line actions -/

theorem alike_pure {a : α} (h : R s s') : Alike R (pure a) (pure a) s s' := ⟨rfl, h⟩

theorem alike_throw {f : Fault} (h : R s s') :
    Alike R (throw f : Action σ α) (throw f) s s' := ⟨rfl, h⟩

/-- The first parts may end in states that are closer to each other than the whole. -/
theorem alike_bind_of {P : σ → σ → Prop} {x y : Action σ β} {f g : β → Action σ α}
    (h : Alike P x y s s') (hP : ∀ t t', P t t' → R t t')
    (hfg : ∀ b t t', x s = .ok b t → P t t' → Alike R (f b) (g b) t t') :
    Alike R (x >>= f) (y >>= g) s s' := by
  unfold Alike at h
  simp only [Alike, bind, EStateM.bind]
  cases hx : x s <;> cases hy : y s' <;> rw [hx, hy] at h
  · obtain ⟨rfl, hR⟩ := h
    exact hfg _ _ _ hx hR
  · exact h.elim
  · exact h.elim
  · exact ⟨h.1, hP _ _ h.2⟩

/-- The second parts start from related states, and behind what the first part on the left
    did. -/
theorem alike_bind {x y : Action σ β} {f g : β → Action σ α} (h : Alike R x y s s')
    (hfg : ∀ b t t', x s = .ok b t → R t t' → Alike R (f b) (g b) t t') :
    Alike R (x >>= f) (y >>= g) s s' :=
  alike_bind_of h (fun _ _ => id) hfg

theorem alike_get {f g : σ → Action σ α} :
    Alike R (get >>= f) (get >>= g) s s' ↔ Alike R (f s) (g s') s s' := Iff.rfl

theorem alike_set {t t' : σ} {f g : PUnit → Action σ α} :
    Alike R (set t >>= f) (set t' >>= g) s s' ↔ Alike R (f ⟨⟩) (g ⟨⟩) t t' := Iff.rfl

theorem alike_modify {u v : σ → σ} {f g : PUnit → Action σ α} :
    Alike R (modify u >>= f) (modify v >>= g) s s' ↔ Alike R (f ⟨⟩) (g ⟨⟩) (u s) (v s') := Iff.rfl

theorem alike_set_last {t t' : σ} (h : R t t') : Alike R (set t) (set t') s s' := ⟨rfl, h⟩

theorem alike_modify_last {u v : σ → σ} (h : R (u s) (v s')) :
    Alike R (modify u) (modify v) s s' := ⟨rfl, h⟩

theorem alike_ite {c : Prop} [Decidable c] {x' y' : Action σ α} (h : c → Alike R x y s s')
    (h' : ¬ c → Alike R x' y' s s') :
    Alike R (if c then x else x') (if c then y else y') s s' := by
  by_cases hc : c
  · rw [if_pos hc, if_pos hc]
    exact h hc
  · rw [if_neg hc, if_neg hc]
    exact h' hc

theorem alike_lift {e : Except Fault β} {f g : β → Action σ α} (h : R s s')
    (hfg : ∀ b, e = .ok b → Alike R (f b) (g b) s s') :
    Alike R ((liftM e : Action σ β) >>= f) ((liftM e : Action σ β) >>= g) s s' := by
  cases e with
  | ok b => exact hfg b rfl
  | error fault => exact ⟨rfl, h⟩

/-- Parts that are run on parts of states. -/
theorem alike_zoom {P : τ → τ → Prop} {view view' : σ → τ} {put put' : τ → σ → σ}
    {x y : Action τ α} (h : Alike P x y (view s) (view' s'))
    (hput : ∀ t t', P t t' → R (put t s) (put' t' s')) :
    Alike R (Action.zoom view put x) (Action.zoom view' put' y) s s' := by
  unfold Alike at h
  simp only [Alike, Action.zoom]
  cases hx : x (view s) <;> cases hy : y (view' s') <;> rw [hx, hy] at h
  · exact ⟨h.1, hput _ _ h.2⟩
  · exact h
  · exact h
  · exact ⟨h.1, hput _ _ h.2⟩

/-! ## Loops -/

/-- Loops over the same list, of which `I` holds on the left in front of each round. -/
theorem alike_forM {f g : ι → Action σ PUnit} {I : List ι → σ → Prop} {xs : List ι}
    (hI : I [] s) (hR : R s s') (step : ∀ done x todo t t', done ++ x :: todo = xs →
      I done t → R t t' → Alike R (f x) (g x) t t' ∧
        Meets (f x) t (fun _ t₁ => I (done ++ [x]) t₁) fun _ _ => True) :
    Alike R (xs.forM f) (xs.forM g) s s' := by
  suffices ∀ done todo t t', done ++ todo = xs → I done t → R t t' →
      Alike R (todo.forM f) (todo.forM g) t t' from this [] xs s s' rfl hI hR
  intro done todo
  induction todo generalizing done with
  | nil =>
    intro t t' _ _ hR
    exact ⟨rfl, hR⟩
  | cons x todo ih =>
    intro t t' hl hI hR
    obtain ⟨halike, hmeets⟩ := step done x todo t t' hl hI hR
    refine alike_bind halike fun _ t₁ t₁' hrun hR₁ => ?_
    exact ih (done ++ [x]) t₁ t₁' (by simpa using hl) (hmeets.of_ok hrun) hR₁

/-- Loops of which nothing needs to be known. -/
theorem alike_forM_of_mem {f g : ι → Action σ PUnit} {xs : List ι} (hR : R s s')
    (step : ∀ x ∈ xs, ∀ t t', R t t' → Alike R (f x) (g x) t t') :
    Alike R (xs.forM f) (xs.forM g) s s' := by
  refine alike_forM (I := fun _ _ => True) trivial hR fun done x todo t t' hl _ hR' => ?_
  exact ⟨step x (by simp [← hl]) t t' hR', meets_trivial⟩

/-- Loops over the numbers below `n`. -/
theorem alike_forM_range {f g : Nat → Action σ PUnit} {I : Nat → σ → Prop} {n : Nat} (hI : I 0 s)
    (hR : R s s') (step : ∀ i t t', i < n → I i t → R t t' → Alike R (f i) (g i) t t' ∧
      Meets (f i) t (fun _ t₁ => I (i + 1) t₁) fun _ _ => True) :
    Alike R ((List.range n).forM f) ((List.range n).forM g) s s' := by
  refine alike_forM (I := fun done t => I done.length t) hI hR ?_
  intro done x todo t t' hl hI' hR'
  obtain ⟨rfl, hlt⟩ := range_split hl
  obtain ⟨halike, hmeets⟩ := step _ t t' hlt hI' hR'
  exact ⟨halike, by simpa using hmeets⟩

/-- The same for loops with an accumulator. -/
theorem alike_foldlM_range {f g : β → Nat → Action σ β} {I : Nat → β → σ → Prop} {n : Nat} {b : β}
    (hI : I 0 b s) (hR : R s s') (step : ∀ i b t t', i < n → I i b t → R t t' →
      Alike R (f b i) (g b i) t t' ∧
        Meets (f b i) t (fun b₁ t₁ => I (i + 1) b₁ t₁) fun _ _ => True) :
    Alike R ((List.range n).foldlM f b) ((List.range n).foldlM g b) s s' := by
  suffices ∀ done todo b t t', done ++ todo = List.range n → I done.length b t → R t t' →
      Alike R (todo.foldlM f b) (todo.foldlM g b) t t' from this [] _ b s s' rfl hI hR
  intro done todo
  induction todo generalizing done with
  | nil =>
    intro b t t' _ _ hR
    exact ⟨rfl, hR⟩
  | cons x todo ih =>
    intro b t t' hl hI hR
    obtain ⟨rfl, hlt⟩ := range_split hl
    obtain ⟨halike, hmeets⟩ := step _ b t t' hlt hI hR
    rw [List.foldlM_cons, List.foldlM_cons]
    refine alike_bind halike fun b₁ t₁ t₁' hrun hR₁ => ?_
    refine ih (done ++ [done.length]) b₁ t₁ t₁' (by simpa using hl) ?_ hR₁
    simpa using hmeets.of_ok hrun

end SlabHeap
