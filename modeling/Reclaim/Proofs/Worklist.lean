import Reclaim.Worklist

/-!
A worklist runs to its end when every visit leaves fewer references to follow.
-/
namespace Reclaim

variable {α β : Type}

@[simp] theorem ok_bind (a : α) (f : α → Except Fault β) : (Except.ok a >>= f) = f a := rfl

@[simp] theorem error_bind (e : Fault) (f : α → Except Fault β) :
    (Except.error e >>= f) = .error e := rfl

theorem bind_eq_ok {x : Except Fault α} {f : α → Except Fault β} {b : β} :
    (x >>= f) = .ok b ↔ ∃ a, x = .ok a ∧ f a = .ok b := by
  cases x with
  | ok a => simp
  | error e => simp

-- A step that is taken on one side of a test, and what the computation goes on with after it.
theorem ite_bind_of_ok {c : Prop} [Decidable c] {x a : α} {e : Except Fault α}
    (h : (if c then .ok x else e) = .ok a) (f : α → Except Fault β) :
    (if c then f x else e >>= f) = f a := by
  split at h
  · next hc => rw [if_pos hc, Except.ok.inj h]
  · next hc => rw [if_neg hc, h, ok_bind]

theorem eq_ok_get {x : Except Fault α} (h : x.toOption.isSome = true) :
    x = .ok (x.toOption.get h) := by
  cases x with
  | ok a => rfl
  | error e => cases h

theorem eq_ok_of_toOption {x : Except Fault α} {a : α} (h : x.toOption = some a) : x = .ok a := by
  cases x with
  | ok a => exact congrArg _ (Option.some.inj h)
  | error e => cases h

theorem foldlM_ok {f : β → α → Except Fault β} (inv : List α → β → Prop)
    (step : ∀ a rest b, inv (a :: rest) b → ∃ b', f b a = .ok b' ∧ inv rest b')
    (xs : List α) (b : β) (h : inv xs b) : ∃ b', xs.foldlM f b = .ok b' ∧ inv [] b' := by
  induction xs generalizing b with
  | nil => exact ⟨b, rfl, h⟩
  | cons a rest ih =>
    obtain ⟨b', hstep, hinv⟩ := step a rest b h
    obtain ⟨b'', hrest, hend⟩ := ih b' hinv
    exact ⟨b'', by rw [List.foldlM_cons, hstep]; exact hrest, hend⟩

-- No buffers could be had, as a collector finds it and as it is told of one among several.
def Fault.IsShortage (f : Fault) : Prop := f = .capacityOverflow ∨ f = .fatal .collectorFailed

-- The computation has a result, unless no buffers can be had.
def Yields (roomy : Prop) (x : Except Fault α) (P : α → Prop) : Prop :=
  (∃ a, x = .ok a ∧ P a) ∨ ¬roomy ∧ ∃ f, x = .error f ∧ f.IsShortage

namespace Yields

variable {roomy : Prop} {x : Except Fault α} {P : α → Prop} {Q : β → Prop}

theorem ok {a : α} (h : P a) : Yields roomy (.ok a) P := Or.inl ⟨a, rfl, h⟩

theorem of_ok {a : α} (hx : x = .ok a) (h : P a) : Yields roomy x P := Or.inl ⟨a, hx, h⟩

theorem mono (h : Yields roomy x P) {P' : α → Prop} (hp : ∀ a, P a → P' a) :
    Yields roomy x P' :=
  h.imp_left fun ⟨a, hx, ha⟩ => ⟨a, hx, hp a ha⟩

-- The result is the one that the computation has.
theorem eq_ok (h : Yields roomy x P) : Yields roomy x fun a => x = .ok a ∧ P a :=
  h.imp_left fun ⟨a, hx, ha⟩ => ⟨a, hx, hx, ha⟩

theorem bind {g : α → Except Fault β} (h : Yields roomy x P)
    (hg : ∀ a, P a → Yields roomy (g a) Q) : Yields roomy (x >>= g) Q := by
  rcases h with ⟨a, rfl, ha⟩ | ⟨hr, f, rfl, hshort⟩
  · exact hg a ha
  · exact Or.inr ⟨hr, f, rfl, hshort⟩

theorem mapError (h : Yields roomy x P) {g : Fault → Fault}
    (hg : ∀ f : Fault, f.IsShortage → (g f).IsShortage) : Yields roomy (x.mapError g) P := by
  rcases h with ⟨a, rfl, ha⟩ | ⟨hr, f, rfl, hshort⟩
  · exact ok ha
  · exact Or.inr ⟨hr, g f, rfl, hg f hshort⟩

-- A condition that holds as long as buffers can be had.
theorem guard {c : Except Fault Unit} (hr : roomy → c = .ok ())
    (hc : c = .ok () ∨ c = .error .capacityOverflow) : Yields roomy c fun _ => True := by
  rcases hc with hc | hc
  · exact of_ok hc trivial
  · refine Or.inr ⟨fun h => ?_, _, hc, Or.inl rfl⟩
    rw [hr h] at hc
    cases hc

theorem foldlM {f : β → α → Except Fault β} (inv : List α → β → Prop)
    (step : ∀ a rest b, inv (a :: rest) b → Yields roomy (f b a) (inv rest))
    (xs : List α) (b : β) (h : inv xs b) : Yields roomy (xs.foldlM f b) (inv []) := by
  induction xs generalizing b with
  | nil => exact ok h
  | cons a rest ih =>
    rw [List.foldlM_cons]
    exact (step a rest b h).bind fun b' hb' => ih b' hb'

end Yields

-- The computation has a result, or ends with a fault of which `E` holds.
def Concludes (E : Fault → Prop) (x : Except Fault α) (P : α → Prop) : Prop :=
  (∃ a, x = .ok a ∧ P a) ∨ ∃ f, x = .error f ∧ E f

namespace Concludes

variable {E : Fault → Prop} {x : Except Fault α} {P : α → Prop} {Q : β → Prop}

theorem ok {a : α} (h : P a) : Concludes E (.ok a) P := Or.inl ⟨a, rfl, h⟩

theorem of_ok {a : α} (hx : x = .ok a) (h : P a) : Concludes E x P := Or.inl ⟨a, hx, h⟩

theorem error {f : Fault} (h : E f) : Concludes E (.error f) P := Or.inr ⟨f, rfl, h⟩

theorem mono (h : Concludes E x P) {P' : α → Prop} (hp : ∀ a, P a → P' a) : Concludes E x P' :=
  h.imp_left fun ⟨a, hx, ha⟩ => ⟨a, hx, hp a ha⟩

theorem mono_fault (h : Concludes E x P) {E' : Fault → Prop} (he : ∀ f, E f → E' f) : Concludes E' x P :=
  h.imp_right fun ⟨f, hx, hf⟩ => ⟨f, hx, he f hf⟩

theorem bind {g : α → Except Fault β} (h : Concludes E x P) (hg : ∀ a, P a → Concludes E (g a) Q) :
    Concludes E (x >>= g) Q := by
  rcases h with ⟨a, rfl, ha⟩ | ⟨f, rfl, hf⟩
  · exact hg a ha
  · exact error hf

end Concludes

-- `measure` bounds what may still be put on the stack, so the stack and the measure together bound
-- the steps that are left.
theorem worklist_ends {σ : Type} {visit : Nat → σ → Except Fault (List Nat × σ)} {E : Fault → Prop}
    (inv : List Nat → σ → Prop) (measure : σ → Nat)
    (step : ∀ o work s, inv (o :: work) s → Concludes E (visit o s) fun r =>
      inv (r.1.reverse ++ work) r.2 ∧ r.1.length + measure r.2 ≤ measure s)
    (fuel : Nat) (work : List Nat) (s : σ) (h : inv work s)
    (hfuel : work.length + measure s ≤ fuel) : Concludes E (worklist visit fuel work s) (inv []) := by
  induction fuel generalizing work s with
  | zero =>
    have hw : work = [] := List.length_eq_zero_iff.mp (by omega)
    subst hw
    exact .ok h
  | succ fuel ih =>
    cases work with
    | nil => exact .ok h
    | cons o work =>
      refine (step o work s h).bind ?_
      rintro ⟨found, s'⟩ ⟨hinv, hless⟩
      refine ih _ s' hinv ?_
      simp only [List.length_append, List.length_reverse, List.length_cons] at hfuel hless ⊢
      omega

theorem worklist_ok {σ : Type} {visit : Nat → σ → Except Fault (List Nat × σ)}
    (inv : List Nat → σ → Prop) (measure : σ → Nat)
    (step : ∀ o work s, inv (o :: work) s → ∃ found s', visit o s = .ok (found, s') ∧
      inv (found.reverse ++ work) s' ∧ found.length + measure s' ≤ measure s)
    (fuel : Nat) (work : List Nat) (s : σ) (h : inv work s)
    (hfuel : work.length + measure s ≤ fuel) :
    ∃ s', worklist visit fuel work s = .ok s' ∧ inv [] s' := by
  refine (worklist_ends (E := fun _ => False) inv measure (fun o work s hinv => ?_) fuel work s h
    hfuel).resolve_right fun ⟨_, _, hf⟩ => hf
  obtain ⟨found, s', hvisit, hafter⟩ := step o work s hinv
  exact .of_ok hvisit hafter

-- Working off `work` in the state `s` comes to visit `o` in the state `t`.
inductive Visits {σ : Type} (visit : Nat → σ → Except Fault (List Nat × σ)) :
    List Nat → σ → Nat → σ → Prop
  | here {o : Nat} {work : List Nat} {s : σ} : Visits visit (o :: work) s o s
  | later {o x : Nat} {work found : List Nat} {s s' t : σ} : visit o s = .ok (found, s') →
    Visits visit (found.reverse ++ work) s' x t → Visits visit (o :: work) s x t

-- What every visit keeps up holds whenever an object is visited.
theorem Visits.invariant {σ : Type} {visit : Nat → σ → Except Fault (List Nat × σ)}
    {P : List Nat → σ → Prop}
    (step : ∀ o work s found s', P (o :: work) s → visit o s = .ok (found, s') →
      P (found.reverse ++ work) s')
    {work : List Nat} {s t : σ} {o : Nat} (h : Visits visit work s o t) (hi : P work s) :
    ∃ rest, P (o :: rest) t := by
  induction h with
  | here => exact ⟨_, hi⟩
  | later hvisit _ ih => exact ih (step _ _ _ _ _ hi hvisit)

end Reclaim
