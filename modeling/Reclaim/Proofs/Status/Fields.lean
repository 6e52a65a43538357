import Reclaim.Proofs.Status
import Reclaim.Proofs.Worklist

/-!
A status word as a record of its fields. The record holds all of the word, and every call on the word is a
call on the record: it answers the same and replaces one field. No order of calls lets one field disturb
another therefore. The first claim of an object wins and no later one does, also once the word leads to a
copy.
-/
namespace Reclaim.Status

-- The fields of a status word, from the low end on.
structure Fields where
  forwarding : Nat
  mark : Bool
  color : Nat
  buffered : Bool
  spare : Bool
  count : Nat
deriving DecidableEq, Repr

def fields (s : Nat) : Fields where
  forwarding := s % 4
  mark := mark s
  color := s / 8 % 8
  buffered := isBuffered s
  spare := s / 128 % 2 == 1
  count := count s

def Fields.word (f : Fields) : Nat :=
  f.forwarding + 4 * f.mark.toNat + 8 * f.color + 64 * f.buffered.toNat + 128 * f.spare.toNat +
    countUnit * f.count

-- What is asked of a status word.
inductive Call where
  | setColor (c : Color)
  | setBuffered
  | clearBuffered
  | testAndMark (state : Bool)
  | increment
  | decrement
  | claim
  -- Leads to the copy of an object that was claimed.
  | publish (target : Nat)
deriving DecidableEq, Repr

inductive Reply where
  | done
  -- Whether the call changed the flag.
  | flag (changed : Bool)
  -- The new count, unless the old one could not be decremented.
  | count (count : Option Nat)
  -- The word before the claim, unless another claim came first.
  | claimed (earlier : Option Nat)
deriving DecidableEq, Repr

def Reply.wins : Reply → Bool
  | .claimed earlier => earlier.isSome
  | _ => false

def perform (s : Nat) : Call → Except Fault (Reply × Nat)
  | .setColor c => .ok (.done, setColor s c)
  | .setBuffered => .ok (.flag !isBuffered s, setBuffered s)
  | .clearBuffered => .ok (.done, clearBuffered s)
  | .testAndMark state => .ok (.flag (testAndMark? s state).isSome, (testAndMark? s state).getD s)
  | .increment => .ok (.count (some (count s + 1)), increment s)
  | .decrement => .ok (.count ((decrement? s).map count), (decrement? s).getD s)
  | .claim => .ok (.claimed ((claim? s).map fun _ => s), (claim? s).getD s)
  | .publish target => if isClaimed s then .ok (.done, forwardedTo target) else .error .assertion

-- The same call on separate fields.
def Fields.perform (f : Fields) : Call → Except Fault (Reply × Fields)
  | .setColor c => .ok (.done, { f with color := c.code })
  | .setBuffered => .ok (.flag !f.buffered, { f with buffered := true })
  | .clearBuffered => .ok (.done, { f with buffered := false })
  | .testAndMark state => .ok (.flag (f.mark != state), { f with mark := state })
  | .increment => .ok (.count (some (f.count + 1)), { f with count := (f.count + 1) % 2 ^ 56 })
  | .decrement =>
    if f.count = 0 then .ok (.count none, f)
    else .ok (.count (some (f.count - 1)), { f with count := f.count - 1 })
  | .claim =>
    if f.forwarding = 0 then .ok (.claimed (some f.word), { f with forwarding := 1 })
    else .ok (.claimed none, f)
  | .publish target =>
    if f.forwarding = 1 then .ok (.done, fields (target / 4 * 4 + 3)) else .error .assertion

-- Calls one after the other, with their replies.
def replay {σ : Type} (step : σ → Call → Except Fault (Reply × σ)) (s : σ) :
    List Call → Except Fault (List Reply × σ)
  | [] => .ok ([], s)
  | call :: rest => do
    let (reply, s) ← step s call
    let (replies, s) ← replay step s rest
    .ok (reply :: replies, s)

section Bits

variable {s : Nat} {f : Fields}

theorem toNat_odd (n : Nat) : (n % 2 == 1).toNat = n % 2 := by
  rcases Nat.mod_two_eq_zero_or_one n with h | h <;> rw [h] <;> rfl

theorem toNat_mark (s : Nat) : (mark s).toNat = s / 4 % 2 := toNat_odd _

theorem toNat_isBuffered (s : Nat) : (isBuffered s).toNat = s / 64 % 2 := toNat_odd _

theorem word_fields (s : Nat) : (fields s).word = s := by
  simp only [Fields.word, fields, toNat_mark, toNat_isBuffered, toNat_odd, count, countUnit]
  omega

-- A record is the fields of a word if its parts are the digits of the word.
theorem fields_eq_iff : fields s = f ↔ s % 4 = f.forwarding ∧ s / 4 % 2 = f.mark.toNat ∧
    s / 8 % 8 = f.color ∧ s / 64 % 2 = f.buffered.toNat ∧ s / 128 % 2 = f.spare.toNat ∧
    s / 256 = f.count := by
  constructor
  · rintro rfl
    exact ⟨rfl, (toNat_odd _).symm, rfl, (toNat_odd _).symm, (toNat_odd _).symm, rfl⟩
  · rintro ⟨h0, h1, h2, h3, h4, h5⟩
    have hbit : ∀ {n : Nat} {b : Bool}, n % 2 = b.toNat → (n % 2 == 1) = b := by
      intro n b h
      rw [h]
      cases b <;> rfl
    simp only [fields, mark, isBuffered, count, countUnit, h0, hbit h1, h2, hbit h3, hbit h4, h5]

@[simp] theorem fields_setColor (s : Nat) (c : Color) :
    fields (setColor s c) = { fields s with color := c.code } := by
  have hc := c.code_lt
  rw [fields_eq_iff]
  simp only [fields, toNat_mark, toNat_isBuffered, toNat_odd, count, countUnit, setColor]
  omega

@[simp] theorem fields_setBuffered (s : Nat) :
    fields (setBuffered s) = { fields s with buffered := true } := by
  rw [fields_eq_iff]
  simp only [fields, toNat_mark, toNat_odd, count, countUnit, setBuffered, isBuffered, beq_iff_eq,
    Bool.toNat_true]
  split <;> omega

@[simp] theorem fields_clearBuffered (s : Nat) :
    fields (clearBuffered s) = { fields s with buffered := false } := by
  rw [fields_eq_iff]
  simp only [fields, toNat_mark, toNat_odd, count, countUnit, clearBuffered, isBuffered, beq_iff_eq,
    Bool.toNat_false]
  split <;> omega

theorem fields_flipMark (s : Nat) : fields (flipMark s) = { fields s with mark := !mark s } := by
  have hmark := toNat_mark s
  rw [fields_eq_iff]
  simp only [fields, toNat_isBuffered, toNat_odd, count, countUnit, flipMark]
  cases hs : mark s with
  | false =>
    rw [hs, Bool.toNat_false] at hmark
    simp only [Bool.false_eq_true, if_false, Bool.not_false, Bool.toNat_true]
    omega
  | true =>
    rw [hs, Bool.toNat_true] at hmark
    simp only [if_true, Bool.not_true, Bool.toNat_false]
    omega

theorem testAndMark?_isSome (s : Nat) (state : Bool) :
    (testAndMark? s state).isSome = (mark s != state) := by
  rw [testAndMark?, isMarked]
  cases hs : mark s == state <;> simp [bne, hs]

theorem fields_testAndMark (s : Nat) (state : Bool) :
    fields ((testAndMark? s state).getD s) = { fields s with mark := state } := by
  rw [testAndMark?, isMarked]
  by_cases hs : mark s = state
  · rw [if_pos (beq_iff_eq.mpr hs), Option.getD_none, ← hs]
    rfl
  · have hflip : (!mark s) = state := by rw [Bool.not_eq_eq_eq_not, Bool.eq_not]; exact hs
    rw [if_neg (mt beq_iff_eq.mp hs), Option.getD_some, fields_flipMark, hflip]

-- Also the increment that wraps stays in its field.
@[simp] theorem fields_increment (s : Nat) :
    fields (increment s) = { fields s with count := (count s + 1) % 2 ^ 56 } := by
  have hbound : Word.bound = 2 ^ 64 := rfl
  rw [fields_eq_iff]
  simp only [fields, toNat_mark, toNat_isBuffered, toNat_odd, count, countUnit, increment,
    Word.wrapAdd, hbound]
  omega

theorem fields_sub_countUnit (h : 0 < count s) :
    fields (s - countUnit) = { fields s with count := count s - 1 } := by
  rw [fields_eq_iff]
  simp only [fields, toNat_mark, toNat_isBuffered, toNat_odd, count, countUnit] at h ⊢
  omega

theorem fields_claimed (h : s % 4 = 0) : fields (s + 1) = { fields s with forwarding := 1 } := by
  rw [fields_eq_iff]
  simp only [fields, toNat_mark, toNat_isBuffered, toNat_odd, count, countUnit]
  omega

-- What a decrement takes away an increment adds, and the other way round.
theorem decrement?_increment (h : count s + 1 < 2 ^ 56) : decrement? (increment s) = some s := by
  have hcount := count_increment h
  rw [decrement?, if_neg (by omega), increment_eq (add_countUnit_lt h), Nat.add_sub_cancel]

theorem increment_sub_countUnit (hs : s < Word.bound) (h : 0 < count s) :
    increment (s - countUnit) = s := by
  have hle : countUnit ≤ s := by
    simp only [count, countUnit] at h ⊢
    omega
  rw [increment_eq (by omega), Nat.sub_add_cancel hle]

theorem forCopy_of_unclaimed (h : s % 4 = 0) : forCopy s = s := by
  rw [forCopy]
  omega

end Bits

-- A call on the word is a call on its fields.
theorem fields_perform (s : Nat) (call : Call) :
    (perform s call).map (Prod.map id fields) = (fields s).perform call := by
  cases call with
  | setColor c =>
    change Except.ok (Reply.done, fields (setColor s c)) = _
    rw [fields_setColor]
    rfl
  | setBuffered =>
    change Except.ok (Reply.flag _, fields (setBuffered s)) = _
    rw [fields_setBuffered]
    rfl
  | clearBuffered =>
    change Except.ok (Reply.done, fields (clearBuffered s)) = _
    rw [fields_clearBuffered]
    rfl
  | testAndMark state =>
    change Except.ok (Reply.flag _, fields _) = _
    rw [fields_testAndMark, testAndMark?_isSome]
    rfl
  | increment =>
    change Except.ok (Reply.count _, fields (increment s)) = _
    rw [fields_increment]
    rfl
  | decrement =>
    change Except.ok (Reply.count ((decrement? s).map count), fields ((decrement? s).getD s)) =
      if count s = 0 then _ else _
    by_cases hzero : count s = 0
    · rw [decrement?, if_pos hzero, if_pos hzero]
      rfl
    · have hpos := Nat.pos_of_ne_zero hzero
      have hfields := fields_sub_countUnit hpos
      have hcount : count (s - countUnit) = count s - 1 := congrArg Fields.count hfields
      rw [decrement?, if_neg hzero, if_neg hzero, Option.map_some, Option.getD_some, hfields, hcount]
      rfl
  | claim =>
    change Except.ok (Reply.claimed ((claim? s).map fun _ => s), fields ((claim? s).getD s)) =
      if s % 4 = 0 then _ else _
    by_cases hfree : s % 4 = 0
    · rw [claim?, if_pos hfree, if_pos hfree, Option.map_some, Option.getD_some,
        fields_claimed hfree, word_fields]
    · rw [claim?, if_neg hfree, if_neg hfree]
      rfl
  | publish target =>
    change Except.map _ (if isClaimed s = true then _ else _) = if s % 4 = 1 then _ else _
    by_cases hclaimed : s % 4 = 1
    · rw [if_pos hclaimed, if_pos ((isClaimed_iff s).mpr hclaimed)]
      rfl
    · rw [if_neg hclaimed, if_neg (mt (isClaimed_iff s).mp hclaimed)]
      rfl

theorem map_replay {σ τ : Type} {step : σ → Call → Except Fault (Reply × σ)}
    {step' : τ → Call → Except Fault (Reply × τ)} {view : σ → τ}
    (hstep : ∀ s call, (step s call).map (Prod.map id view) = step' (view s) call) (s : σ)
    (calls : List Call) :
    (replay step s calls).map (Prod.map id view) = replay step' (view s) calls := by
  induction calls generalizing s with
  | nil => rfl
  | cons call rest ih =>
    rw [replay, replay, ← hstep]
    cases step s call with
    | error f => rfl
    | ok r =>
      obtain ⟨reply, s'⟩ := r
      change ((replay step s' rest >>= _).map _ : Except Fault _) = (replay step' (view s') rest >>= _)
      rw [← ih s']
      cases replay step s' rest <;> rfl

-- What each call keeps, all calls keep.
theorem replay_invariant {σ : Type} {step : σ → Call → Except Fault (Reply × σ)} {P : σ → Prop}
    {calls : List Call} {s t : σ} {replies : List Reply}
    (hstep : ∀ call ∈ calls, ∀ s reply t, P s → step s call = .ok (reply, t) → P t) (hs : P s)
    (h : replay step s calls = .ok (replies, t)) : P t := by
  induction calls generalizing s replies with
  | nil =>
    cases h
    exact hs
  | cons call rest ih =>
    simp only [replay, bind_eq_ok, Prod.exists] at h
    obtain ⟨reply, s', hcall, replies', _, hrest, hlast⟩ := h
    cases hlast
    exact ih (fun call hmem => hstep call (List.mem_cons_of_mem _ hmem))
      (hstep call List.mem_cons_self _ _ _ hs hcall) hrest

namespace Fields

variable {f g : Fields} {call : Call} {calls : List Call} {reply : Reply} {replies : List Reply}

-- No call makes a word longer.
theorem perform_count_lt (hf : f.count < 2 ^ 56)
    (hcall : ∀ target, call = .publish target → target < Word.bound)
    (h : f.perform call = .ok (reply, g)) : g.count < 2 ^ 56 := by
  cases call with
  | setColor _ | setBuffered | clearBuffered | testAndMark _ =>
    cases h
    exact hf
  | increment =>
    cases h
    exact Nat.mod_lt _ (by decide)
  | decrement =>
    simp only [perform] at h
    split at h <;> cases h
    · exact hf
    · exact Nat.lt_of_le_of_lt (Nat.sub_le _ _) hf
  | claim =>
    simp only [perform] at h
    split at h <;> cases h <;> exact hf
  | publish target =>
    have htarget := hcall target rfl
    simp only [perform] at h
    split at h <;> cases h
    simp only [fields, Status.count, countUnit, Word.bound] at htarget ⊢
    omega

-- Only a claim that finds no forwarding bits wins, and only a claim ends that state.
theorem perform_claims (h : f.perform call = .ok (reply, g)) :
    (reply.wins = true ↔ f.forwarding = 0 ∧ call = .claim) ∧
      (g.forwarding = 0 ↔ f.forwarding = 0 ∧ call ≠ .claim) := by
  cases call with
  | setColor _ | setBuffered | clearBuffered | testAndMark _ | increment =>
    cases h
    simp [Reply.wins]
  | decrement =>
    simp only [perform] at h
    split at h <;> cases h <;> simp [Reply.wins]
  | claim =>
    simp only [perform] at h
    split at h <;> cases h <;> simp_all [Reply.wins]
  | publish target =>
    simp only [perform] at h
    split at h <;> cases h
    rename_i hclaimed
    have hmod : (target / 4 * 4 + 3) % 4 = 3 := by omega
    simp [Reply.wins, fields, hclaimed, hmod]

-- The first claim wins, and no other one does.
theorem countP_wins (h : replay perform f calls = .ok (replies, g)) :
    replies.countP Reply.wins = if f.forwarding = 0 ∧ .claim ∈ calls then 1 else 0 := by
  induction calls generalizing f replies with
  | nil =>
    cases h
    simp
  | cons call rest ih =>
    simp only [replay, bind_eq_ok, Prod.exists] at h
    obtain ⟨reply, f', hcall, replies', _, hrest, hlast⟩ := h
    cases hlast
    obtain ⟨hwins, hfree⟩ := perform_claims hcall
    simp only [List.countP_cons, ih hrest, List.mem_cons]
    by_cases hzero : f.forwarding = 0
    · by_cases hclaim : call = .claim
      · simp_all
      · have hother : Call.claim ≠ call := Ne.symm hclaim
        simp_all
    · simp_all

end Fields

-- What the calls do to a word of any fields.
structure Independent (s : Nat) : Prop where
  -- The fields are all of the word.
  whole : (fields s).word = s
  setColor (c : Color) : fields (setColor s c) = { fields s with color := c.code } ∧
    color (setColor s c) = c
  setBuffered : fields (setBuffered s) = { fields s with buffered := true }
  clearBuffered : fields (clearBuffered s) = { fields s with buffered := false }
  testAndMark (state : Bool) :
    fields ((testAndMark? s state).getD s) = { fields s with mark := state }
  increment : count s < 2 ^ 56 - 1 →
    fields (increment s) = { fields s with count := count s + 1 } ∧
      decrement? (increment s) = some s
  decrement_zero : count s = 0 → perform s .decrement = .ok (.count none, s)
  decrement_pos : 0 < count s → ∃ t, decrement? s = some t ∧
    fields t = { fields s with count := count s - 1 } ∧ Status.increment t = s
  -- A claim answers the word that the copy takes over, and leaves no second claim.
  claim : s % 4 = 0 → ∃ t, perform s .claim = .ok (.claimed (some s), t) ∧
    fields t = { fields s with forwarding := 1 } ∧ forwarding t = .claimed ∧
      claim? t = none ∧ forCopy s = s
  publish (target : Nat) : isClaimed s = true → 0 < target → target % 4 = 0 →
    ∃ t, perform s (.publish target) = .ok (.done, t) ∧ forwarding t = .forwarded target ∧
      claim? t = none

theorem independent {s : Nat} (hs : s < Word.bound) : Independent s where
  whole := word_fields s
  setColor c := ⟨fields_setColor s c, color_setColor s c⟩
  setBuffered := fields_setBuffered s
  clearBuffered := fields_clearBuffered s
  testAndMark := fields_testAndMark s
  increment h := by
    have hlt : count s + 1 < 2 ^ 56 := by omega
    exact ⟨by rw [fields_increment, Nat.mod_eq_of_lt hlt], decrement?_increment hlt⟩
  decrement_zero h := by
    rw [perform, decrement?, if_pos h]
    rfl
  decrement_pos h := ⟨s - countUnit, if_neg (Nat.ne_of_gt h), fields_sub_countUnit h,
    increment_sub_countUnit hs h⟩
  claim h := by
    obtain ⟨hclaim, hclaimed⟩ := claim?_ok h
    have hmod : (s + 1) % 4 = 1 := (isClaimed_iff _).mp hclaimed
    refine ⟨s + 1, by rw [perform, hclaim]; rfl, fields_claimed h, ?_, ?_, forCopy_of_unclaimed h⟩
    · rw [forwarding, if_neg (by omega), if_neg (by omega)]
    · rw [claim?, if_neg (by omega)]
  publish target h hpos hmod := by
    obtain ⟨hclaim, hforward⟩ := forwarding_published hmod hpos
    exact ⟨forwardedTo target, if_pos h, hforward, hclaim⟩

-- Any calls, in any order, answer and leave what they answer and leave for separate fields.
theorem calls_independent {s : Nat} (hs : s < Word.bound) {calls : List Call}
    (htargets : ∀ target, .publish target ∈ calls → target < Word.bound) :
    (replay perform s calls).map (Prod.map id fields) = replay Fields.perform (fields s) calls ∧
    ∀ replies t, replay perform s calls = .ok (replies, t) → t < Word.bound ∧ Independent t ∧
      replies.countP Reply.wins = if s % 4 = 0 ∧ .claim ∈ calls then 1 else 0 := by
  have hmap := map_replay fields_perform s calls
  refine ⟨hmap, fun replies t h => ?_⟩
  have hfields : replay Fields.perform (fields s) calls = .ok (replies, fields t) := by
    rw [← hmap, h]
    rfl
  have hcount : (fields t).count < 2 ^ 56 := by
    refine replay_invariant (P := fun f => f.count < 2 ^ 56) (fun call hmem f reply g hf hcall => ?_)
      ((lt_bound_iff s).mp hs) hfields
    exact Fields.perform_count_lt hf (fun target heq => htargets target (heq ▸ hmem)) hcall
  have ht : t < Word.bound := (lt_bound_iff t).mpr hcount
  exact ⟨ht, independent ht, Fields.countP_wins hfields⟩

-- A purple object is claimed, turns grey and leads to its copy; two later claims lose.
theorem calls_independent_moved : ∃ replies t,
    replay perform (initial true .purple 5)
      [.increment, .claim, .setColor .grey, .claim, .publish 65536, .claim] = .ok (replies, t) ∧
    t < Word.bound ∧ Independent t ∧ replies.countP Reply.wins = 1 := by
  have htargets : ∀ target, Call.publish target ∈
      [.increment, .claim, .setColor .grey, .claim, .publish 65536, .claim] →
        target < Word.bound := by
    intro target hmem
    have heq : target = 65536 := by simpa using hmem
    rw [heq]
    decide
  have hlt : initial true .purple 5 < Word.bound := by decide
  exact ⟨_, _, rfl, (calls_independent hlt htargets).2 _ _ rfl⟩

end Reclaim.Status
