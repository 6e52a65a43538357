import Reclaim.Proofs.Tour.Closing

/-!
Collectors that work on a closure together, in any order. The roots are shared out in any way, and any
collector that is free takes any entry that waits in the queues. An object that many references lead to
is visited once, whoever comes first, and the closure comes to its end.
-/
namespace Reclaim

open Heap Queue Sizes

-- A collector among others.
structure Member where
  ordinal : Nat
  copy : CellAllocator
  stats : TraceStats := {}
  -- Its roots that it has not taken yet.
  roots : List Root := []
  -- What is left to trace of the object that it scans.
  slots : List Nat := []

namespace Member

-- The member alone with what all share. Its ends of the queues are empty.
def tracing (m : Member) (c : Closure) : Tracing where
  shared := c
  ordinal := m.ordinal
  copy := some m.copy
  stats := m.stats

def tasks (m : Member) : List Task := m.roots.map .root ++ m.slots.map .edge

-- What members have done in sum.
def total (members : List Member) : TraceStats :=
  members.foldr (fun m stats => m.stats.add stats) {}

end Member

-- The collectors of a closure.
structure Team where
  -- The chains stay empty: all that waits there is in `entries`, in no order.
  shared : Closure
  members : List Member
  entries : List Task := []
  -- The objects that were copied, marked and scanned, the last one first.
  copied : List Nat := []
  marked : List Nat := []
  scanned : List Nat := []

-- What a member takes up next, and what it leaves of the list where that was.
inductive Choice where
  | root (r : Root) (rest : List Root)
  | slot (a : Nat) (rest : List Nat)
  | entry (task : Task) (rest : List Task)

namespace Team

-- Members take all their roots first, and finish an object before they turn to the queues.
def Offers (s : Team) (m : Member) : Choice → Prop
  | .root r rest => m.roots = r :: rest
  | .slot a rest => m.roots = [] ∧ m.slots = a :: rest
  | .entry task rest => m.roots = [] ∧ m.slots = [] ∧ s.entries.Perm (task :: rest)

-- Member `i`, now `m`, has traced a reference to `o` and come to `t`. What it queued is left to all.
def absorb (s : Team) (i : Nat) (m : Member) (t : Tracing) (o : Nat) (entries : List Task)
    (scanned : List Nat) : Team where
  shared := { t.shared with queues := s.shared.queues }
  members := s.members.set i { m with copy := t.copy.getD m.copy, stats := t.stats }
  entries := t.tasks ++ entries
  copied := if m.stats.copied < t.stats.copied then o :: s.copied else s.copied
  marked := if m.stats.marked < t.stats.marked then o :: s.marked else s.marked
  scanned := scanned

-- An entry of the queues is processed.
def process (t : Tracing) : Root → Except Fault Tracing
  | .location slot => t.processEdge slot
  | .interior base slot => t.processInterior base slot
  | .value o => t.addRoot (.value o)

-- Member `i`, which is `m`, does what it chose.
def play (s : Team) (i : Nat) (m : Member) : Choice → Except Fault Team
  | .root r rest => do
    let t ← (m.tracing s.shared).addRoot r
    .ok (s.absorb i { m with roots := rest } t (r.target s.shared.heap.memory) s.entries s.scanned)
  | .slot a rest => do
    let t ← (m.tracing s.shared).processEdge a
    .ok (s.absorb i { m with slots := rest } t (s.shared.heap.memory.read a) s.entries s.scanned)
  | .entry (.root r) rest => do
    let t ← process (m.tracing s.shared) r
    .ok (s.absorb i m t (r.target s.shared.heap.memory) rest s.scanned)
  | .entry (.scan o) rest => do
    let slots ← Object.slots s.shared.heap.types s.shared.heap.memory o
    .ok (s.absorb i { m with slots } (m.tracing s.shared).startScan o rest (o :: s.scanned))

-- Nothing is left to do for anybody.
def Done (s : Team) : Prop := s.entries = [] ∧ ∀ m ∈ s.members, m.roots = [] ∧ m.slots = []

def stats (s : Team) : TraceStats := Member.total s.members

-- The plan that the team leaves when it started from `p`.
def plan (s : Team) (p : Plan) : Plan :=
  { Collection.withClosure p s.shared with
    workers := s.members.map (fun m => { ordinal := m.ordinal, copy := m.copy }) ++
      p.workers.drop (Collection.participants p) }

-- What a team can come to in `k` steps that starts the closure of `p`.
inductive Reached (p : Plan) : Nat → Team → Prop
  | start {members : List Member} :
    members.map (·.ordinal) = (p.workers.take (Collection.participants p)).map (·.ordinal) →
    (∀ m ∈ members, m.copy = {} ∧ m.stats = {} ∧ m.slots = []) →
    (members.flatMap (·.roots)).Perm p.roots →
    Reached p 0 { shared := Collection.closure p, members }
  | step {k : Nat} {s s' : Team} {i : Nat} {m : Member} {choice : Choice} : Reached p k s →
    s.members[i]? = some m → s.Offers m choice → s.play i m choice = .ok s' → Reached p (k + 1) s'

end Team

namespace Member

variable {members members' : List Member}

instance : LeftCommutative fun (m : Member) (stats : TraceStats) => m.stats.add stats where
  left_comm a b stats := by
    simp only [TraceStats.add, RootCounts.add, Nat.add_left_comm]

theorem total_perm (h : members.Perm members') : total members = total members' := by
  unfold total
  exact h.foldr_eq _

-- Members that have done nothing yet, and all that is before them.
theorem total_fresh (h : ∀ m ∈ members, m.stats = {}) : total members = {} := by
  induction members with
  | nil => rfl
  | cons m rest ih =>
    change m.stats.add (total rest) = {}
    rw [h m List.mem_cons_self, ih fun m' hm' => h m' (List.mem_cons_of_mem _ hm')]
    rfl

end Member

-- A member and all others.
theorem Team.perm_of_member {members : List Member} {i : Nat} {m : Member} (h : members[i]? = some m) :
    members.Perm (m :: members.eraseIdx i) ∧
      ∀ m', (m' :: members.eraseIdx i).Perm (members.set i m') := by
  obtain ⟨hi, rfl⟩ := List.getElem?_eq_some_iff.mp h
  exact ⟨(List.getElem_cons_eraseIdx_perm hi).symm, fun m' => (List.set_perm_cons_eraseIdx hi m').symm⟩

theorem Team.sum_set {members : List Member} {i : Nat} {m : Member} (h : members[i]? = some m)
    (f : Member → Nat) (m' : Member) :
    ((members.set i m').map f).sum + f m = (members.map f).sum + f m' := by
  obtain ⟨hm, hset⟩ := perm_of_member h
  rw [(hm.map f).sum_eq, ← ((hset m').map f).sum_eq, List.map_cons, List.map_cons, List.sum_cons,
    List.sum_cons]
  omega

-- The steps for what a member has before it. A root may come back as an entry.
def Member.effort (m : Member) : Nat := m.slots.length + 2 * m.roots.length

theorem Member.sum_effort {members : List Member} (h : ∀ m ∈ members, m.slots = []) :
    (members.map Member.effort).sum = 2 * (members.flatMap (·.roots)).length := by
  induction members with
  | nil => rfl
  | cons m rest ih =>
    have hrest := ih fun m' hm' => h m' (List.mem_cons_of_mem _ hm')
    have hfirst : m.effort = 2 * m.roots.length := by
      rw [effort, h m List.mem_cons_self]
      exact Nat.zero_add _
    rw [List.map_cons, List.sum_cons, List.flatMap_cons, List.length_append, hrest, hfirst,
      Nat.mul_add]

-- How many steps are left at most, when there are `n` objects at most and none has more than `k`
-- references.
def Team.effort (s : Team) (k n : Nat) : Nat :=
  (n - (s.copied.length + s.marked.length)) * (k + 2) +
    (s.copied.length + s.marked.length - s.scanned.length) * (k + 1) + s.entries.length +
    (s.members.map Member.effort).sum

-- The team has come as far as `q` tells.
structure Team.Sound (g : Ground) (p : Plan) (s : Team) (q : Progress) : Prop where
  policy_eq : s.shared.policy = .hybrid
  newRoots_eq : s.shared.newRoots = none
  queues_eq : s.shared.queues = p.queues
  ordinals_eq : s.members.map (·.ordinal) =
    (p.workers.take (Collection.participants p)).map (·.ordinal)
  owners : ∀ m ∈ s.members, m.copy.Owns s.shared.heap.mature
  toured : Toured g s.shared.heap q.layout q.seen q.place
  owing : Owing g s.shared.heap.memory q (s.members.flatMap Member.tasks ++ s.entries)
  scanned_eq : s.scanned = q.scanned
  copied_eq : s.copied = q.seen.filter fun x => g.Young x
  marked_eq : s.marked = q.seen.filter fun x => ¬g.Young x
  scans : s.stats.scanned = s.scanned.length
  copies : s.stats.copied = s.copied.length
  marks : s.stats.marked = s.marked.length

namespace Team.Sound

variable {g : Ground} {p : Plan} {s : Team} {q : Progress} {i n : Nat} {m : Member}
variable {rest : List Member}

theorem length_seen (hs : s.Sound g p q) : q.seen.length = s.copied.length + s.marked.length := by
  rw [hs.copied_eq, hs.marked_eq, ← List.countP_eq_length_filter, ← List.countP_eq_length_filter,
    List.length_eq_countP_add_countP fun x => decide (g.Young x)]
  simp only [Bool.not_eq_true, decide_eq_false_iff_not, decide_not]

-- The closure as a member finds it, between the others.
def part (g : Ground) (p : Plan) (rest : List Member) : Part where
  ground := g
  others := rest.map (·.copy)
  earlier := Member.total rest
  buffer := p.buffer

theorem touring (hs : s.Sound g p q) (hq : p.queues.Idle p.buffer) (hg : g.Ready)
    (hm : s.members.Perm (m :: rest)) :
    Touring (part g p rest) (g.heap.maxObjects - q.seen.length) (m.tracing s.shared) q
      (m.tasks ++ (rest.flatMap Member.tasks ++ s.entries)) := by
  have hidle : s.shared.queues.Idle p.buffer := hs.queues_eq ▸ hq
  have htasks : (m.tracing s.shared).tasks = [] := Tracing.tasks_of_idle hidle rfl rfl rfl
  have htotal : s.stats = m.stats.add (Member.total rest) := Member.total_perm hm
  have hseen := hs.toured.length_le hg
  have hfirst : m ∈ s.members := hm.mem_iff.mpr List.mem_cons_self
  have hscans := hs.scans
  have hcopies := hs.copies
  have hmarks := hs.marks
  rw [htotal] at hscans hcopies hmarks
  exact {
    policy_eq := hs.policy_eq
    newRoots_eq := hs.newRoots_eq
    copy := ⟨m.copy, rfl, hs.owners m hfirst⟩
    others := fun x hx => by
      obtain ⟨m', hm', rfl⟩ := List.mem_map.mp hx
      exact hs.owners m' (hm.mem_iff.mpr (List.mem_cons_of_mem _ hm'))
    objects := ⟨hidle.values.1, hidle.values.2.2⟩
    slots := ⟨hidle.locations.1, hidle.locations.2.2⟩
    pointers := ⟨hidle.interior.1, hidle.interior.2.2⟩
    toured := hs.toured
    owing := by
      rw [htasks, List.nil_append, ← List.append_assoc]
      exact hs.owing.perm ((hm.flatMap_right _).append_right _)
    level := by
      rw [htasks, List.length_nil]
      change 0 + g.heap.maxObjects = _
      omega
    scanned_eq := by
      rw [← hs.scanned_eq, ← hscans]
      exact Nat.add_comm _ _
    copied_eq := by
      rw [List.countP_eq_length_filter]
      exact (Nat.add_comm _ _).trans (hcopies.trans (congrArg List.length hs.copied_eq))
    marked_eq := by
      rw [List.countP_eq_length_filter]
      exact (Nat.add_comm _ _).trans (hmarks.trans (congrArg List.length hs.marked_eq)) }

-- A log of the objects of some sort gets the one that was visited, if the count of them went up.
theorem log_eq {p : Nat → Bool} {seen seen' log : List Nat} {o before after others : Nat}
    (hlog : log = seen.filter p) (hseen : seen' = seen ∨ seen' = o :: seen)
    (hbefore : others + before = seen.countP p) (hafter : others + after = seen'.countP p) :
    (if before < after then o :: log else log) = seen'.filter p := by
  rcases hseen with rfl | rfl
  · rw [if_neg (by omega), hlog]
  · by_cases hp : p o = true
    · rw [List.countP_cons_of_pos hp] at hafter
      rw [if_pos (by omega), List.filter_cons_of_pos hp, hlog]
    · rw [List.countP_cons_of_neg hp] at hafter
      rw [if_neg (by omega), List.filter_cons_of_neg hp, hlog]

-- What a member has come to is a state of the team again.
theorem absorb (hs : s.Sound g p q) (hi : s.members[i]? = some m) {m' : Member} {t : Tracing}
    {q' : Progress} {o : Nat} {entries : List Task} {scanned : List Nat}
    (hordinal : m'.ordinal = m.ordinal) (hstats : m'.stats = m.stats) (hscanned : scanned = q'.scanned)
    (hseen : q'.seen = q.seen ∨ q'.seen = o :: q.seen)
    (ht : Touring (part g p (s.members.eraseIdx i)) n t q'
      (m'.tasks ++ ((s.members.eraseIdx i).flatMap Member.tasks ++ entries))) :
    (s.absorb i m' t o entries scanned).Sound g p q' := by
  obtain ⟨hm, hset⟩ := perm_of_member hi
  obtain ⟨x, hcopy, hown⟩ := ht.copy
  let m₁ : Member := { m' with copy := t.copy.getD m'.copy, stats := t.stats }
  have hset₁ := hset m₁
  have hcopy₁ : m₁.copy = x := by
    change t.copy.getD _ = x
    rw [hcopy]
    rfl
  have htotal : s.stats = m.stats.add (Member.total (s.members.eraseIdx i)) := Member.total_perm hm
  have htotal₁ : (s.absorb i m' t o entries scanned).stats =
      t.stats.add (Member.total (s.members.eraseIdx i)) := Member.total_perm hset₁.symm
  have hcopies := hs.copies
  have hmarks := hs.marks
  rw [htotal, hs.copied_eq, ← List.countP_eq_length_filter] at hcopies
  rw [htotal, hs.marked_eq, ← List.countP_eq_length_filter] at hmarks
  have hcopied : (s.absorb i m' t o entries scanned).copied = q'.seen.filter fun x => g.Young x :=
    log_eq hs.copied_eq hseen (by rw [hstats]; exact (Nat.add_comm _ _).trans hcopies) ht.copied_eq
  have hmarked : (s.absorb i m' t o entries scanned).marked = q'.seen.filter fun x => ¬g.Young x :=
    log_eq hs.marked_eq hseen (by rw [hstats]; exact (Nat.add_comm _ _).trans hmarks) ht.marked_eq
  exact {
    policy_eq := ht.policy_eq
    newRoots_eq := ht.newRoots_eq
    queues_eq := hs.queues_eq
    ordinals_eq := by
      obtain ⟨hlt, rfl⟩ := List.getElem?_eq_some_iff.mp hi
      have hlength : i < (s.members.map (·.ordinal)).length := by simpa using hlt
      have hsame : m₁.ordinal = (s.members.map (·.ordinal))[i] := by
        rw [List.getElem_map]
        exact hordinal
      change (s.members.set i m₁).map _ = _
      rw [List.map_set, hsame, List.set_getElem_self, hs.ordinals_eq]
    owners := fun m₂ hm₂ => by
      rcases List.mem_cons.mp (hset₁.mem_iff.mpr hm₂) with rfl | hm₂
      · exact hcopy₁ ▸ hown
      · exact ht.others _ (List.mem_map_of_mem hm₂)
    toured := ht.toured
    owing := ht.owing.perm (by
      change List.Perm _ ((s.members.set i m₁).flatMap Member.tasks ++ (t.tasks ++ entries))
      refine List.Perm.trans ?_ ((hset₁.flatMap_right _).append_right _)
      change List.Perm _ ((m'.tasks ++ _) ++ (t.tasks ++ entries))
      rw [← List.append_assoc m'.tasks]
      exact List.perm_append_comm_assoc _ _ _)
    scanned_eq := hscanned
    copied_eq := hcopied
    marked_eq := hmarked
    scans := by
      rw [htotal₁]
      change _ = scanned.length
      rw [hscanned, ← ht.scanned_eq]
      exact Nat.add_comm _ _
    copies := by
      rw [htotal₁, hcopied, ← List.countP_eq_length_filter]
      exact (Nat.add_comm _ _).trans ht.copied_eq
    marks := by
      rw [htotal₁, hmarked, ← List.countP_eq_length_filter]
      exact (Nat.add_comm _ _).trans ht.marked_eq }

theorem length_scanned_le (hs : s.Sound g p q) : q.scanned.length ≤ q.seen.length := by
  have hlength := hs.owing.scans.length_eq
  rw [List.length_append, List.length_map] at hlength
  omega

-- What a member queues for objects that it visits is paid for by there being fewer of them left.
theorem effort_absorb (hs : s.Sound g p q) (hg : g.Ready) (hi : s.members[i]? = some m) {m' : Member}
    {t : Tracing} {q' : Progress} {o d k : Nat} {entries : List Task}
    (hs' : (s.absorb i m' t o entries s.scanned).Sound g p q')
    (hseen : q'.seen = q.seen ∨ q'.seen = o :: q.seen)
    (hlevel : t.tasks.length + q.seen.length ≤ q'.seen.length + d)
    (hcost : entries.length + d + m'.effort < s.entries.length + m.effort) :
    (s.absorb i m' t o entries s.scanned).effort k g.heap.maxObjects <
      s.effort k g.heap.maxObjects := by
  let m₁ : Member := { m' with copy := t.copy.getD m'.copy, stats := t.stats }
  have hsum := sum_set hi Member.effort m₁
  have hle := hs.length_scanned_le
  have htop := hs'.toured.length_le hg
  rw [← hs.scanned_eq] at hle
  rw [effort, effort, ← hs.length_seen, ← hs'.length_seen]
  change _ * _ + (_ - s.scanned.length) * _ + (t.tasks ++ entries).length +
    ((s.members.set i m₁).map Member.effort).sum < _
  change _ + m.effort = _ + m'.effort at hsum
  rw [List.length_append]
  rcases hseen with heq | heq
  · rw [heq] at hlevel ⊢
    omega
  · rw [heq, List.length_cons] at hlevel htop ⊢
    have h1 : g.heap.maxObjects - q.seen.length =
        g.heap.maxObjects - (q.seen.length + 1) + 1 := by omega
    have h2 : q.seen.length + 1 - s.scanned.length = q.seen.length - s.scanned.length + 1 := by omega
    rw [h1, h2, Nat.add_mul _ 1 (k + 2), Nat.add_mul _ 1 (k + 1)]
    omega

-- What a tracer has queued is for the object that it has visited, or for a root that it has taken.
theorem advance (hs : s.Sound g p q) (hg : g.Ready) (hi : s.members[i]? = some m) {m' : Member}
    {t : Tracing} {q' : Progress} {o d k : Nat} {entries : List Task}
    (hordinal : m'.ordinal = m.ordinal) (hstats : m'.stats = m.stats) (hmeets : q.Meets o q')
    (hn : n ≤ g.heap.maxObjects - q.seen.length + d)
    (hcost : entries.length + d + m'.effort < s.entries.length + m.effort)
    (ht : Touring (part g p (s.members.eraseIdx i)) n t q'
      (m'.tasks ++ ((s.members.eraseIdx i).flatMap Member.tasks ++ entries))) :
    (∃ q', (s.absorb i m' t o entries s.scanned).Sound g p q') ∧
      (s.absorb i m' t o entries s.scanned).effort k g.heap.maxObjects <
        s.effort k g.heap.maxObjects := by
  have htop := hs.toured.length_le hg
  have hs' := hs.absorb hi hordinal hstats (hs.scanned_eq.trans hmeets.scanned_eq.symm)
    hmeets.seen_eq ht
  have hlevel := ht.level
  change _ + g.heap.maxObjects = _ at hlevel
  exact ⟨⟨q', hs'⟩, hs.effort_absorb hg hi hs' hmeets.seen_eq (d := d) (by omega) hcost⟩

-- A member that takes an object has its references to trace.
theorem scan (hs : s.Sound g p q) (hg : g.Ready) (hi : s.members[i]? = some m)
    (hroots : m.roots = []) (hslots : m.slots = []) {o k : Nat} {left : List Task}
    (hlength : s.entries.length = left.length + 1)
    (hk : ∀ x, g.IsObject x → (g.slots x).length ≤ k)
    (ht : Touring (part g p (s.members.eraseIdx i)) n (m.tracing s.shared) q
      (.scan o :: ((s.members.eraseIdx i).flatMap Member.tasks ++ left)))
    (hn : n = g.heap.maxObjects - q.seen.length) :
    ∃ s', s.play i m (.entry (.scan o) left) = .ok s' ∧ (∃ q', s'.Sound g p q') ∧
      s'.effort k g.heap.maxObjects < s.effort k g.heap.maxObjects := by
  obtain ⟨x, hx, slots, hlen, hslots', -, ht'⟩ := ht.startScan hg
  let m' : Member := { m with slots }
  let q' : Progress := { q with scanned := o :: q.scanned }
  have htasks : m'.tasks = slots.map .edge := by
    change m.roots.map Task.root ++ _ = _
    rw [hroots]
    rfl
  have hs' : (s.absorb i m' (m.tracing s.shared).startScan o left (o :: s.scanned)).Sound g p q' := by
    refine hs.absorb hi rfl rfl (congrArg _ hs.scanned_eq) (Or.inl rfl) (n := n) ?_
    rw [htasks]
    exact ht'
  refine ⟨_, ?_, ⟨q', hs'⟩, ?_⟩
  · change Object.slots s.shared.heap.types s.shared.heap.memory o >>= _ = _
    rw [show Object.slots s.shared.heap.types s.shared.heap.memory o = .ok slots from hslots']
    rfl
  let m₁ : Member := { m' with
    copy := (m.tracing s.shared).startScan.copy.getD m'.copy
    stats := (m.tracing s.shared).startScan.stats }
  have hsum := sum_set hi Member.effort m₁
  have hbound := hlen ▸ hk x (hs.toured.seen_room x hx).1
  have hnone : (m.tracing s.shared).startScan.tasks.length = 0 := by
    have hlevel := ht'.level
    have htop := hs.toured.length_le hg
    change _ + g.heap.maxObjects = n + q.seen.length at hlevel
    omega
  have hle := hs'.length_scanned_le
  change q.scanned.length + 1 ≤ q.seen.length at hle
  rw [effort, effort, ← hs.length_seen, ← hs'.length_seen]
  change (_ - q.seen.length) * _ + (q.seen.length - (o :: s.scanned).length) * _ +
    ((m.tracing s.shared).startScan.tasks ++ left).length +
    ((s.members.set i m₁).map Member.effort).sum < _
  have hcost : m.effort = 0 ∧ m₁.effort = slots.length := by
    change m.slots.length + 2 * m.roots.length = 0 ∧ slots.length + 2 * m.roots.length = _
    rw [hroots, hslots]
    exact ⟨rfl, rfl⟩
  rw [hcost.1, hcost.2] at hsum
  have h1 : q.seen.length - q.scanned.length = q.seen.length - (q.scanned.length + 1) + 1 := by omega
  rw [List.length_append, List.length_cons, hs.scanned_eq, h1, Nat.add_mul _ 1 (k + 1)]
  omega

-- An entry is processed.
theorem process {e : Part} {t : Tracing} {r : Root} {tasks : List Task} (hg : e.ground.Ready)
    (ht : Touring e n t q (.root r :: tasks)) :
    Affords (process t r) fun t' => ∃ q', Touring e n t' q' tasks ∧
      q.Meets (r.target t.memory) q' := by
  cases r with
  | location slot => exact ht.processEdge hg
  | interior base slot => exact ht.processInterior hg
  | value o => exact ht.addPinned hg

-- Whatever a member chooses, it can do it unless memory runs out, and fewer steps are left.
theorem play (hs : s.Sound g p q) (hq : p.queues.Idle p.buffer) (hg : g.Ready)
    (hi : s.members[i]? = some m) {choice : Choice} (ho : s.Offers m choice) {k : Nat}
    (hk : ∀ x, g.IsObject x → (g.slots x).length ≤ k) :
    Affords (s.play i m choice) fun s' => (∃ q', s'.Sound g p q') ∧
      s'.effort k g.heap.maxObjects < s.effort k g.heap.maxObjects := by
  obtain ⟨hm, -⟩ := perm_of_member hi
  have ht := hs.touring hq hg hm
  cases choice with
  | root r left =>
    change m.roots = r :: left at ho
    have htasks : m.tasks = .root r :: ({ m with roots := left } : Member).tasks := by
      rw [Member.tasks, ho]
      rfl
    rw [htasks] at ht
    refine (ht.addRoot hg).bind fun t ⟨n', q', hn, ht', hmeets⟩ => .ok ?_
    refine hs.advance hg hi rfl rfl hmeets hn ?_ ht'
    change _ + (m.slots.length + 2 * left.length) < _ + (m.slots.length + 2 * m.roots.length)
    rw [ho, List.length_cons]
    omega
  | slot a left =>
    obtain ⟨hroots, hslots⟩ := ho
    have htasks : m.tasks = .edge a :: ({ m with slots := left } : Member).tasks := by
      rw [Member.tasks, Member.tasks, hroots, hslots]
      rfl
    rw [htasks] at ht
    refine (ht.processEdge hg).bind fun t ⟨q', ht', hmeets⟩ => .ok ?_
    refine hs.advance hg hi rfl rfl hmeets (d := 0) (le_refl _) ?_ ht'
    change _ + (left.length + 2 * m.roots.length) < _ + (m.slots.length + 2 * m.roots.length)
    rw [hslots, List.length_cons]
    omega
  | entry task left =>
    obtain ⟨hroots, hslots, hentries⟩ := ho
    have hlength := hentries.length_eq
    rw [List.length_cons] at hlength
    have htasks : m.tasks = [] := by
      rw [Member.tasks, hroots, hslots]
      rfl
    have ht₁ : Touring (part g p (s.members.eraseIdx i)) (g.heap.maxObjects - q.seen.length)
        (m.tracing s.shared) q (task :: ((s.members.eraseIdx i).flatMap Member.tasks ++ left)) :=
      { ht with
        owing := ht.owing.perm (List.Perm.append_left _ (by
          rw [htasks, List.nil_append]
          exact (hentries.append_left _).trans List.perm_middle)) }
    cases task with
    | root r =>
      refine (process hg ht₁).bind fun t ⟨q', ht', hmeets⟩ => .ok ?_
      refine hs.advance hg hi rfl rfl hmeets (d := 0) (le_refl _) (by omega) ?_
      rw [htasks]
      exact ht'
    | scan o =>
      obtain ⟨s', hplay, hs'⟩ := hs.scan hg hi hroots hslots hlength hk ht₁ rfl
      exact .of_ok hplay hs'

end Team.Sound

namespace Team

variable {p p₀ : Plan} {stopped : List Mutator} {l l₀ : Layout} {known : Set Nat} {s : Team}
variable {q : Progress} {k : Nat}

-- A team starts with all of the work before it.
theorem sound_start (ho : Opened p p₀ stopped l l₀ known) {members : List Member}
    (hordinals : members.map (·.ordinal) =
      (p₀.workers.take (Collection.participants p₀)).map (·.ordinal))
    (hfresh : ∀ m ∈ members, m.copy = {} ∧ m.stats = {} ∧ m.slots = [])
    (hroots : (members.flatMap (·.roots)).Perm p₀.roots) :
    Sound (p₀.ground l₀) p₀ { shared := Collection.closure p₀, members } { layout := l₀ } := by
  have htotal : Member.total members = {} := Member.total_fresh fun m hm => (hfresh m hm).2.1
  have htasks : members.flatMap Member.tasks = (members.flatMap (·.roots)).map .root := by
    rw [List.map_flatMap]
    refine List.flatMap_congr fun m hm => ?_
    rw [Member.tasks, (hfresh m hm).2.2]
    exact List.append_nil _
  exact {
    policy_eq := ho.policy_eq
    newRoots_eq := by
      change p₀.counts.map _ = none
      rw [ho.counts_eq]
      rfl
    queues_eq := rfl
    ordinals_eq := hordinals
    owners := fun m hm => by
      rw [(hfresh m hm).1]
      exact CellAllocator.owns_fresh _
    toured := ho.ready.toured
    owing := by
      refine ho.ready.owing.perm ?_
      change List.Perm _ (members.flatMap Member.tasks ++ [])
      rw [List.append_nil, htasks]
      exact (hroots.map Task.root).symm
    scanned_eq := rfl
    copied_eq := rfl
    marked_eq := rfl
    scans := congrArg _ htotal
    copies := congrArg _ htotal
    marks := congrArg _ htotal }

-- Whatever the team does, it is in order, and what it did is paid for.
theorem Reached.sound (ho : Opened p p₀ stopped l l₀ known) {n : Nat} (hr : Reached p₀ n s)
    (hk : ∀ x, (p₀.ground l₀).IsObject x → ((p₀.ground l₀).slots x).length ≤ k) :
    (∃ q, s.Sound (p₀.ground l₀) p₀ q) ∧
      n + s.effort k p₀.heap.maxObjects ≤ p₀.heap.maxObjects * (k + 2) + 2 * p₀.roots.length := by
  induction hr with
  | @start members hordinals hfresh hroots =>
    refine ⟨⟨_, sound_start ho hordinals hfresh hroots⟩, ?_⟩
    have hsum := Member.sum_effort fun m hm => (hfresh m hm).2.2
    rw [hroots.length_eq] at hsum
    change 0 + (p₀.heap.maxObjects * (k + 2) + (0 + 0 - 0) * (k + 1) + 0 +
      (members.map Member.effort).sum) ≤ _
    rw [hsum]
    omega
  | step _ hi hoffers hplay ih =>
    obtain ⟨⟨q, hs⟩, hle⟩ := ih
    rcases hs.play ho.queues ho.ready hi hoffers hk with ⟨s', hrun, hs', hlt⟩ | ⟨f, hf, -⟩
    · rw [hplay] at hrun
      cases hrun
      change effort _ k p₀.heap.maxObjects < effort _ k p₀.heap.maxObjects at hlt
      exact ⟨hs', by omega⟩
    · rw [hplay] at hf
      cases hf

-- A team that is done has closed the closure.
theorem Sound.closed (hs : s.Sound (p₀.ground l₀) p₀ q) (ho : Opened p p₀ stopped l l₀ known)
    (hdone : s.Done) : Closed p₀ (s.plan p₀) l₀ s.stats q where
  config_eq := rfl
  scheduler_eq := rfl
  globals_eq := rfl
  counts_eq := by
    change p₀.counts.map _ = p₀.counts
    rw [ho.counts_eq]
    rfl
  queues := by
    change s.shared.queues.Idle p₀.buffer
    rw [hs.queues_eq]
    exact ho.queues
  workers_eq := by
    obtain ⟨n, hworkers⟩ := ho.workers_eq
    obtain ⟨-, htake, hdrop⟩ := Collection.participants_split hworkers
    have hmembers : s.members.map (fun m => ({ ordinal := m.ordinal } : Worker)) =
        p₀.workers.take (Collection.participants p₀) := by
      have hmap := congrArg (List.map fun i => ({ ordinal := i } : Worker)) hs.ordinals_eq
      rw [List.map_map, List.map_map, htake, List.map_map] at hmap
      rw [htake]
      exact hmap
    change (s.members.map _ ++ p₀.workers.drop _).map _ = _
    rw [List.map_append, List.map_map]
    refine (congrArg₂ (· ++ ·) hmembers ?_).trans (List.take_append_drop _ _)
    rw [hdrop, List.map_map]
    rfl
  owners w hw := by
    rcases List.mem_append.mp hw with hw | hw
    · obtain ⟨m, hm, rfl⟩ := List.mem_map.mp hw
      exact hs.owners m hm
    · obtain ⟨n, hworkers⟩ := ho.workers_eq
      rw [(Collection.participants_split hworkers).2.2] at hw
      obtain ⟨i, -, rfl⟩ := List.mem_map.mp hw
      exact CellAllocator.owns_fresh _
  toured := hs.toured
  owing := by
    have htasks : s.members.flatMap Member.tasks = [] := by
      rw [List.flatMap_eq_nil_iff]
      intro m hm
      rw [Member.tasks, (hdone.2 m hm).1, (hdone.2 m hm).2]
      rfl
    have howing := hs.owing
    rw [htasks, hdone.1] at howing
    exact howing
  scanned_eq := hs.scans.trans (congrArg List.length hs.scanned_eq)
  copied_eq := by
    rw [hs.copies, hs.copied_eq, List.countP_eq_length_filter]

end Team

end Reclaim
