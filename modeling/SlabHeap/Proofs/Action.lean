/-
  What actions reach.

  `Meets act s ok fail`: from the state `s`, the action `act` ends with a value
  and a state that satisfy `ok`, or fails with a fault and a state that satisfy
  `fail`.  The lemmas `meets_…` rewrite this for an action along its parts, so
  that `simp only` turns a straight-line action into the conditions under which
  it keeps its promise; loops are `meets_forM` and its variants, by an invariant.
  `Returns` is the case of an action that does not fail, and `Maintains` that of one
  that leaves a view of the state as it is however it ends.
-/
import SlabHeap.Action

namespace SlabHeap

variable {σ τ α β ι : Type}

/-- From `s`, the action ends in `ok` or fails in `fail`. -/
def Meets (act : Action σ α) (s : σ) (ok : α → σ → Prop) (fail : Fault → σ → Prop) : Prop :=
  match act s with
  | .ok a t => ok a t
  | .error fault t => fail fault t

/-- From `s`, the action ends in `ok`. -/
def Returns (act : Action σ α) (s : σ) (ok : α → σ → Prop) : Prop :=
  Meets act s ok fun _ _ => False

variable {s : σ} {ok : α → σ → Prop} {fail : Fault → σ → Prop} {act : Action σ α}

/-- What an action returns can be checked by running it. -/
instance [h : ∀ a t, Decidable (ok a t)] : Decidable (Returns act s ok) :=
  match hact : act s with
  | .ok a t => decidable_of_iff (ok a t) (by simp only [Returns, Meets, hact])
  | .error _ _ => .isFalse (by simp only [Returns, Meets, hact, not_false_eq_true])

theorem Meets.mono {ok' : α → σ → Prop} {fail' : Fault → σ → Prop} (h : Meets act s ok fail)
    (hok : ∀ a t, ok a t → ok' a t) (hfail : ∀ f t, fail f t → fail' f t) :
    Meets act s ok' fail' := by
  unfold Meets at *
  cases hact : act s with
  | ok a t => rw [hact] at h; exact hok _ _ h
  | error f t => rw [hact] at h; exact hfail _ _ h

theorem Returns.mono {ok' : α → σ → Prop} (h : Returns act s ok)
    (hok : ∀ a t, ok a t → ok' a t) : Returns act s ok' :=
  Meets.mono h hok fun _ _ => id

/-- An action that returns meets any condition on its failures. -/
theorem Returns.meets {ok' : α → σ → Prop} (h : Returns act s ok)
    (hok : ∀ a t, ok a t → ok' a t) : Meets act s ok' fail :=
  Meets.mono h hok fun _ _ => False.elim

/-- What makes an action return can be ruled out where it fails. -/
theorem Meets.and_not {p : Prop} (h : Meets act s ok fail)
    (hp : p → Returns act s fun _ _ => True) :
    Meets act s ok fun f t => fail f t ∧ ¬ p := by
  unfold Returns Meets at *
  cases hact : act s with
  | ok a t =>
    rw [hact] at h
    exact h
  | error f t =>
    rw [hact] at h hp
    exact ⟨h, hp⟩

theorem Meets.of_ok {a : α} {t : σ} (h : Meets act s ok fail) (he : act s = .ok a t) : ok a t := by
  unfold Meets at h
  rwa [he] at h

theorem Meets.of_error {f : Fault} {t : σ} (h : Meets act s ok fail) (he : act s = .error f t) :
    fail f t := by
  unfold Meets at h
  rwa [he] at h

/-- An action ends in one way, so what two lemmas say of its end holds together. -/
theorem Meets.and {ok' : α → σ → Prop} {fail' : Fault → σ → Prop} (h : Meets act s ok fail)
    (h' : Meets act s ok' fail') :
    Meets act s (fun a t => ok a t ∧ ok' a t) fun f t => fail f t ∧ fail' f t := by
  unfold Meets at *
  cases hact : act s with
  | ok a t =>
    rw [hact] at h h'
    exact ⟨h, h'⟩
  | error f t =>
    rw [hact] at h h'
    exact ⟨h, h'⟩

/-- An action ends as it does. -/
theorem meets_self : Meets act s (fun a t => act s = .ok a t) fun f t => act s = .error f t := by
  unfold Meets
  cases hact : act s <;> rfl

theorem meets_trivial : Meets act s (fun _ _ => True) fun _ _ => True :=
  meets_self.mono (fun _ _ _ => trivial) fun _ _ _ => trivial

theorem Returns.exists_ok (h : Returns act s ok) : ∃ a t, act s = .ok a t ∧ ok a t := by
  unfold Returns Meets at h
  cases hact : act s with
  | ok a t =>
    rw [hact] at h
    exact ⟨a, t, rfl, h⟩
  | error f t =>
    rw [hact] at h
    exact h.elim

/-- Actions that agree wherever a first one ends, agree after it. -/
theorem Meets.bind_congr {x : Action σ β} {f g : β → Action σ α}
    (h : Meets x s (fun b t => f b t = g b t) fun _ _ => True) : (x >>= f) s = (x >>= g) s := by
  unfold Meets at h
  simp only [bind, EStateM.bind]
  cases hx : x s with
  | ok b t =>
    rw [hx] at h
    exact h
  | error e t => rfl

/-- An action that reads the state first goes on from it. -/
theorem Action.get_bind (f : σ → Action σ α) : (get >>= f) s = f s s := rfl

/-! ## Straight-line actions -/

theorem meets_pure {a : α} : Meets (pure a) s ok fail ↔ ok a s := Iff.rfl

theorem meets_throw {f : Fault} : Meets (throw f : Action σ α) s ok fail ↔ fail f s := Iff.rfl

theorem meets_bind {x : Action σ β} {f : β → Action σ α} :
    Meets (x >>= f) s ok fail ↔ Meets x s (fun b t => Meets (f b) t ok fail) fail := by
  simp only [Meets, bind, EStateM.bind]
  cases x s <;> rfl

theorem meets_get {ok : σ → σ → Prop} : Meets get s ok fail ↔ ok s s := Iff.rfl

theorem meets_set {t : σ} {ok : PUnit → σ → Prop} : Meets (set t) s ok fail ↔ ok ⟨⟩ t := Iff.rfl

theorem meets_modify {f : σ → σ} {ok : PUnit → σ → Prop} :
    Meets (modify f) s ok fail ↔ ok ⟨⟩ (f s) := Iff.rfl

theorem meets_ite {c : Prop} [Decidable c] {x y : Action σ α} :
    Meets (if c then x else y) s ok fail ↔
      (c → Meets x s ok fail) ∧ (¬ c → Meets y s ok fail) := by
  by_cases h : c <;> simp [h]

theorem meets_lift {x : Except Fault α} :
    Meets (liftM x : Action σ α) s ok fail ↔
      (∀ a, x = .ok a → ok a s) ∧ ∀ f, x = .error f → fail f s := by
  cases x with
  | ok a => simp [Meets, liftM, monadLift, MonadLift.monadLift, Action.ofExcept]
  | error f => simp [Meets, liftM, monadLift, MonadLift.monadLift, Action.ofExcept]

theorem meets_zoom {view : σ → τ} {put : τ → σ → σ} {x : Action τ α} :
    Meets (Action.zoom view put x) s ok fail ↔
      Meets x (view s) (fun a t => ok a (put t s)) (fun f t => fail f (put t s)) := by
  simp only [Meets, Action.zoom]
  cases x (view s) <;> rfl

/-! ## Loops -/

/-- A loop keeps an invariant of the elements that are done and those to come. -/
theorem meets_forM {f : ι → Action σ PUnit} {I : List ι → List ι → σ → Prop} {xs : List ι}
    (h : I [] xs s) (step : ∀ done x todo t, I done (x :: todo) t →
      Meets (f x) t (fun _ t' => I (done ++ [x]) todo t') fail) :
    Meets (xs.forM f) s (fun _ t => I xs [] t) fail := by
  suffices ∀ done todo t, I done todo t →
      Meets (todo.forM f) t (fun _ t' => I (done ++ todo) [] t') fail from this [] xs s h
  intro done todo
  induction todo generalizing done with
  | nil =>
    intro t ht
    simpa [List.forM, meets_pure] using ht
  | cons x todo ih =>
    intro t ht
    rw [show (x :: todo).forM f = f x >>= fun _ => todo.forM f from rfl, meets_bind]
    refine (step done x todo t ht).mono (fun _ t' ht' => ?_) fun _ _ => id
    simpa using ih (done ++ [x]) t' ht'

/-- The same for a loop with an accumulator. -/
theorem meets_foldlM {f : β → ι → Action σ β} {I : List ι → List ι → β → σ → Prop} {xs : List ι}
    {b : β} (h : I [] xs b s) (step : ∀ done x todo b t, I done (x :: todo) b t →
      Meets (f b x) t (fun b' t' => I (done ++ [x]) todo b' t') fail) :
    Meets (xs.foldlM f b) s (fun b t => I xs [] b t) fail := by
  suffices ∀ done todo b t, I done todo b t →
      Meets (todo.foldlM f b) t (fun b' t' => I (done ++ todo) [] b' t') fail from this [] xs b s h
  intro done todo
  induction todo generalizing done with
  | nil =>
    intro b t ht
    simpa [meets_pure] using ht
  | cons x todo ih =>
    intro b t ht
    rw [List.foldlM_cons, meets_bind]
    refine (step done x todo b t ht).mono (fun b' t' ht' => ?_) fun _ _ => id
    simpa using ih (done ++ [x]) b' t' ht'

theorem range_split {n x : Nat} {done todo : List Nat} (h : done ++ x :: todo = List.range n) :
    x = done.length ∧ done.length < n := by
  have hlen := congrArg List.length h
  have hget := congrArg (·[done.length]?) h
  simp only [List.length_append, List.length_cons, List.length_range] at hlen
  have hlt : done.length < n := by omega
  simp [hlt] at hget
  exact ⟨hget, hlt⟩

/-- A loop over the numbers below `n` keeps an invariant of the number reached. -/
theorem meets_forM_range {f : Nat → Action σ PUnit} {I : Nat → σ → Prop} {n : Nat} (h : I 0 s)
    (step : ∀ i t, i < n → I i t → Meets (f i) t (fun _ t' => I (i + 1) t') fail) :
    Meets ((List.range n).forM f) s (fun _ t => I n t) fail := by
  have hrun : Meets ((List.range n).forM f) s
      (fun _ t => List.range n ++ [] = List.range n ∧ I (List.range n).length t) fail := by
    refine meets_forM (I := fun done todo t => done ++ todo = List.range n ∧ I done.length t)
      ⟨rfl, h⟩ ?_
    rintro done x todo t ⟨hl, ht⟩
    obtain ⟨rfl, hlt⟩ := range_split hl
    refine (step _ t hlt ht).mono (fun _ t' ht' => ⟨by simpa using hl, ?_⟩) fun _ _ => id
    simpa using ht'
  refine hrun.mono (fun _ t ht => ?_) fun _ _ => id
  simpa only [List.length_range] using ht.2

/-- The same for a loop with an accumulator. -/
theorem meets_foldlM_range {f : β → Nat → Action σ β} {I : Nat → β → σ → Prop} {n : Nat} {b : β}
    (h : I 0 b s)
    (step : ∀ i b t, i < n → I i b t → Meets (f b i) t (fun b' t' => I (i + 1) b' t') fail) :
    Meets ((List.range n).foldlM f b) s (fun b t => I n b t) fail := by
  have hrun : Meets ((List.range n).foldlM f b) s
      (fun b t => List.range n ++ [] = List.range n ∧ I (List.range n).length b t) fail := by
    refine meets_foldlM (I := fun done todo b t => done ++ todo = List.range n ∧ I done.length b t)
      ⟨rfl, h⟩ ?_
    rintro done x todo b t ⟨hl, ht⟩
    obtain ⟨rfl, hlt⟩ := range_split hl
    refine (step _ b t hlt ht).mono (fun _ t' ht' => ⟨by simpa using hl, ?_⟩) fun _ _ => id
    simpa using ht'
  refine hrun.mono (fun _ t ht => ?_) fun _ _ => id
  simpa only [List.length_range] using ht.2

/-! ## Views -/

/-- From `s`, the action leaves a view of the state as it is, also if it fails. -/
def Maintains (view : σ → τ) (act : Action σ α) (s : σ) : Prop :=
  Meets act s (fun _ t => view t = view s) fun _ t => view t = view s

variable {view : σ → τ}

/-- What is seen of a view that is left as it is, is left as it is. -/
theorem Maintains.map {ρ : Type} (g : τ → ρ) (h : Maintains view act s) :
    Maintains (fun t => g (view t)) act s :=
  h.mono (fun _ _ => congrArg g) fun _ _ => congrArg g

theorem maintains_get_bind {f : σ → Action σ α} :
    Maintains view (get >>= f) s ↔ Maintains view (f s) s := Iff.rfl

theorem maintains_lift {x : Except Fault α} : Maintains view (liftM x) s :=
  meets_lift.2 ⟨fun _ _ => rfl, fun _ _ => rfl⟩

theorem Maintains.bind {x : Action σ β} {f : β → Action σ α} (hx : Maintains view x s)
    (hf : ∀ b t, Maintains view (f b) t) : Maintains view (x >>= f) s := by
  refine meets_bind.2 (hx.mono (fun b t ht => ?_) fun _ _ => id)
  exact (hf b t).mono (fun _ _ => (·.trans ht)) fun _ _ => (·.trans ht)

theorem maintains_forM {f : ι → Action σ PUnit} {xs : List ι} (hf : ∀ x t, Maintains view (f x) t) :
    Maintains view (xs.forM f) s :=
  meets_forM (I := fun _ _ t => view t = view s) rfl fun _ x _ t ht =>
    (hf x t).mono (fun _ _ => (·.trans ht)) fun _ _ => (·.trans ht)

theorem maintains_foldlM {f : β → ι → Action σ β} {xs : List ι} {b : β}
    (hf : ∀ b x t, Maintains view (f b x) t) : Maintains view (xs.foldlM f b) s :=
  meets_foldlM (I := fun _ _ _ t => view t = view s) rfl fun _ x _ b t ht =>
    (hf b x t).mono (fun _ _ => (·.trans ht)) fun _ _ => (·.trans ht)

/-- An action on a part of the state leaves a view of the rest as it is. -/
theorem maintains_zoom {ρ : Type} {part : σ → ρ} {put : ρ → σ → σ} {x : Action ρ α}
    (h : ∀ r, view (put r s) = view s) : Maintains view (Action.zoom part put x) s :=
  meets_zoom.2 (meets_trivial.mono (fun _ r _ => h r) fun _ r _ => h r)

end SlabHeap
