import Mathlib.Data.List.Basic
import Mathlib.Data.List.Induction
import Reclaim.Proofs.Plan.Totals

/-!
Requests for collections, in whatever order they come. One collection runs at a time, and somebody may ask
for another one while it does. A request stands until the end of a collection, also of one that had begun
before it. So a forced request is left without one just after a collection during which it came, and at
no other moment.
-/
namespace Reclaim.Requests

inductive Event where
  | ask (forced : Bool)
  | begin
  | finish
deriving DecidableEq, Repr

def step (r : Requests) : Event → Requests
  | .ask forced => r.ask forced
  | .begin => r.begin
  | .finish => r.finish

def replay (r : Requests) (events : List Event) : Requests := events.foldl step r

-- No collection begins before the last one has ended, and only one that has begun ends.
def Orderly (r : Requests) : List Event → Prop
  | [] => True
  | e :: rest => (e = .begin → r.inProgress = false) ∧ (e = .finish → r.inProgress = true) ∧
    Orderly (r.step e) rest

instance : (r : Requests) → (events : List Event) → Decidable (Orderly r events)
  | _, [] => inferInstanceAs (Decidable True)
  | r, e :: rest =>
    have := instDecidableOrderly (r.step e) rest
    inferInstanceAs (Decidable (_ ∧ _ ∧ _))

variable {r : Requests} {events before after : List Event} {e : Event}

@[simp] theorem replay_append (r : Requests) (before after : List Event) :
    r.replay (before ++ after) = (r.replay before).replay after := List.foldl_append

@[simp] theorem replay_singleton (r : Requests) (e : Event) : r.replay [e] = r.step e := rfl

theorem orderly_append :
    r.Orderly (before ++ after) ↔ r.Orderly before ∧ (r.replay before).Orderly after := by
  induction before generalizing r with
  | nil => exact ⟨fun h => ⟨trivial, h⟩, And.right⟩
  | cons e rest ih => simp only [List.cons_append, Orderly, ih, and_assoc, replay, List.foldl_cons]

section Flags

variable {sets : Event → Prop} {clear : Event}

-- Some event sets a flag, and it is not cleared after that.
def Since (sets : Event → Prop) (clear : Event) (events : List Event) : Prop :=
  ∃ before e after, events = before ++ e :: after ∧ sets e ∧ clear ∉ after

theorem since_concat :
    Since sets clear (events ++ [e]) ↔ sets e ∨ Since sets clear events ∧ clear ≠ e := by
  constructor
  · rintro ⟨before, e', after, heq, hsets, hafter⟩
    obtain rfl | ⟨after, last, rfl⟩ := after.eq_nil_or_concat'
    · obtain ⟨rfl, rfl⟩ := List.append_singleton_inj.mp heq
      exact .inl hsets
    · rw [← List.cons_append, ← List.append_assoc] at heq
      obtain ⟨rfl, rfl⟩ := List.append_singleton_inj.mp heq
      rw [List.mem_append, List.mem_singleton, not_or] at hafter
      exact .inr ⟨⟨before, e', after, rfl, hsets, hafter.1⟩, hafter.2⟩
  · rintro (hsets | ⟨⟨before, e', after, rfl, hsets, hafter⟩, hne⟩)
    · exact ⟨events, e, [], rfl, hsets, List.not_mem_nil⟩
    · exact ⟨before, e', after ++ [e], by simp, hsets, by simp [hafter, hne]⟩

-- What each event does to a flag tells how all of them leave it.
theorem flag_replay (flag : Requests → Bool)
    (hstep : ∀ r e, flag (r.step e) = true ↔ sets e ∨ flag r = true ∧ clear ≠ e) (r : Requests)
    (events : List Event) :
    flag (r.replay events) = true ↔ Since sets clear events ∨ flag r = true ∧ clear ∉ events := by
  induction events using List.reverseRecOn with
  | nil => simp [Since, replay]
  | append_singleton events e ih =>
    simp only [replay_append, replay_singleton, hstep, ih, since_concat, List.mem_append,
      List.mem_singleton, not_or]
    tauto

end Flags

theorem requested_replay (r : Requests) (events : List Event) :
    (r.replay events).requested = true ↔
      Since (∃ forced, · = .ask forced) .finish events ∨ r.requested = true ∧ .finish ∉ events := by
  refine flag_replay requested (fun r e => ?_) r events
  cases e <;> simp [step, ask, begin, finish]

theorem forced_replay (r : Requests) (events : List Event) :
    (r.replay events).forced = true ↔
      Since (· = .ask true) .begin events ∨ r.forced = true ∧ .begin ∉ events := by
  refine flag_replay forced (fun r e => ?_) r events
  cases e <;> simp [step, ask, begin, finish, or_comm]

theorem inProgress_replay (r : Requests) (events : List Event) :
    (r.replay events).inProgress = true ↔
      Since (· = .begin) .finish events ∨ r.inProgress = true ∧ .finish ∉ events := by
  refine flag_replay inProgress (fun r e => ?_) r events
  cases e <;> simp [step, ask, begin, finish]

-- A collection that ends has begun, if none was under way before.
theorem begin_mem_of_orderly (hidle : r.inProgress = false)
    (horder : r.Orderly (before ++ .finish :: after)) : .begin ∈ before := by
  have hrunning := (orderly_append.mp horder).2.2.1 rfl
  rcases (inProgress_replay r before).mp hrunning with ⟨earlier, e, later, rfl, rfl, -⟩ | ⟨hin, -⟩
  · exact List.mem_append_right _ List.mem_cons_self
  · exact absurd (hin.symm.trans hidle) (by decide)

-- A request that comes while no collection is under way stands until one has begun and ended.
theorem requested_until_run (h : r.requested = true) (hidle : r.inProgress = false)
    (horder : r.Orderly events) (hevents : ¬[.begin, .finish].Sublist events) :
    (r.replay events).requested = true := by
  refine (requested_replay r events).mpr (.inr ⟨h, fun hmem => hevents ?_⟩)
  obtain ⟨before, after, rfl⟩ := List.append_of_mem hmem
  have hbegin := begin_mem_of_orderly hidle horder
  exact (List.singleton_sublist.mpr hbegin).append (List.singleton_sublist.mpr List.mem_cons_self)

-- A forced request is left without a request just after a collection during which it came, and at no
-- other moment.
theorem forgotten_iff :
    (replay {} events).forced = true ∧ ¬(replay {} events).requested = true ↔
      ∃ before during, events = before ++ .ask true :: during ++ [.finish] ∧ .begin ∉ during := by
  constructor
  · rintro ⟨hforced, hlost⟩
    rcases (forced_replay {} events).mp hforced with ⟨before, e, after, rfl, rfl, hafter⟩ | ⟨h, -⟩
    · -- The last event is no request, or one would stand now, and no collection has begun.
      obtain rfl | ⟨during, last, rfl⟩ := after.eq_nil_or_concat'
      · rw [replay_append] at hlost
        exact absurd rfl hlost
      · rw [← List.cons_append, ← List.append_assoc, replay_append] at hlost
        rw [List.mem_append, List.mem_singleton, not_or] at hafter
        cases last with
        | ask forced => exact absurd rfl hlost
        | begin => exact absurd rfl hafter.2
        | finish => exact ⟨before, during, by simp, hafter.1⟩
    · cases h
  · rintro ⟨before, during, rfl, hduring⟩
    refine ⟨(forced_replay {} _).mpr (.inl ⟨before, .ask true, during ++ [.finish], by simp, rfl, ?_⟩), ?_⟩
    · simpa using hduring
    · rw [replay_append]
      exact Bool.false_ne_true

-- Nobody asks while a collection is under way.
def Patient (events : List Event) : Prop :=
  ∀ before forced after, events = before ++ .ask forced :: after →
    (replay {} before).inProgress = false

-- Then a forced request is a request.
theorem requested_of_forced (horder : Orderly {} events) (hpatient : Patient events)
    (hforced : (replay {} events).forced = true) : (replay {} events).requested = true := by
  by_contra hlost
  obtain ⟨before, during, rfl, hduring⟩ := forgotten_iff.mp ⟨hforced, hlost⟩
  rw [List.append_assoc, List.cons_append] at horder hpatient
  have hidle := hpatient before true (during ++ [.finish]) rfl
  have hrest := (orderly_append.mp horder).2
  rw [← List.cons_append] at hrest
  rcases List.mem_cons.mp (begin_mem_of_orderly hidle hrest) with h | h
  · cases h
  · exact hduring h

-- A request that comes while a collection is under way is lost with the end of that collection, even a
-- forced one.
theorem not_forall_requested : ¬∀ before after : List Event,
    Orderly {} (before ++ .ask true :: after) → ¬[.begin, .finish].Sublist after →
      (replay {} (before ++ .ask true :: after)).requested = true := by
  intro h
  have hlost := h [.begin] [.finish] (by decide) (by decide)
  cases hlost

-- The calls that ask, and collections.
section Calls

variable {p p' : Plan} {c : Collection} {mutators stopped : List Mutator}

theorem requests_ask (p : Plan) (space : String) (reserved : Nat) (forced : Bool) :
    (p.ask space reserved forced).requests = p.requests.step (.ask forced) := by
  unfold Plan.ask
  split <;> rfl

theorem requests_trigger (h : p.trigger = .ok p') : p'.requests = p.requests.step (.ask true) := by
  unfold Plan.trigger at h
  split at h
  · cases h
    exact requests_ask ..
  · obtain ⟨reserved, -, hlast⟩ := bind_eq_ok.mp h
    cases hlast
    exact requests_ask ..

-- Polls do not ask while a collection runs.
theorem requests_poll {must asked : Bool} {space : String} (h : p.poll must space = .ok (asked, p')) :
    p'.requests = bif asked then p.requests.step (.ask must) else p.requests := by
  unfold Plan.poll at h
  split at h
  · cases h
    rfl
  · obtain ⟨reserved, -, hlast⟩ := bind_eq_ok.mp h
    split at hlast
    · cases hlast
      rfl
    · cases hlast
      exact requests_ask ..

-- All phases of a collection but the last lie between the two events.
theorem requests_run (h : Collection.run p mutators = .ok (stopped, c)) :
    c.plan.requests = p.requests.step .begin :=
  congrArg (·.2.2) (Collection.history_run h)

theorem requests_collect (h : p.collect mutators = .ok (stopped, p')) :
    p'.requests = p.requests.replay [.begin, .finish] :=
  congrArg (·.2.2) (Plan.history_collect h)

end Calls

end Reclaim.Requests
