import Reclaim.Proofs.Word
import Reclaim.Roots
import Mathlib.Data.List.Perm.Basic
import Mathlib.Data.List.Range

/-!
How the roots are shared out. However many collectors there are, each root falls to exactly one of them,
which delivers it as what it is and counts it.
-/
namespace Reclaim

open Sizes

def Root.isLocation : Root → Bool
  | .location _ => true
  | _ => false

def Root.isInterior : Root → Bool
  | .interior _ _ => true
  | _ => false

def Root.isValue : Root → Bool
  | .value _ => true
  | _ => false

-- How many roots of each kind there are.
def RootCounts.ofRoots (roots : List Root) : RootCounts where
  locations := roots.countP Root.isLocation
  interior := roots.countP Root.isInterior
  values := roots.countP Root.isValue

-- Every slot of the table as a root.
def Globals.roots (g : Globals) : List Root :=
  (List.range g.capacity).map fun i => .location (g.base + wordBytes * i)

-- The runtime knows the thread's position.
def Thread.Numbered (t : Thread) : Prop := ∃ n, t.ordinal = some (n + 1)

namespace Roots

-- The first slot of a collector's share, and the one behind its last.
def first (slots collectors ordinal : Nat) : Nat := (ordinal - 1) * (slots / collectors / 2 * 2)

def stop (slots collectors ordinal : Nat) : Nat :=
  if ordinal = collectors then slots else ordinal * (slots / collectors / 2 * 2)

-- The collector that a numbered thread falls to.
def collector (collectors : Nat) (t : Thread) : Nat := (t.ordinal.getD 0 - 1) % collectors + 1

-- The share of one collector.
def share (g : Globals) (threads : List Thread) (ordinal collectors : Nat) : List Root :=
  ((List.range' (first g.capacity collectors ordinal)
      (stop g.capacity collectors ordinal - first g.capacity collectors ordinal)).map fun i =>
    .location (g.base + wordBytes * i)) ++
  (threads.filter fun t => collector collectors t = ordinal).flatMap (·.roots)

variable {g : Globals} {threads : List Thread} {ordinal n : Nat}

theorem collectorOf_eq {t : Thread} (ht : t.Numbered) (n : Nat) :
    collectorOf n t = .ok (collector n t) := by
  obtain ⟨i, hi⟩ := ht
  simp only [collectorOf, hi, Word.sub_ok (Nat.le_add_left 1 i), ok_bind, collector,
    Option.getD_some]

-- Scanning the roots is delivering the share.
theorem scan_eq {σ : Type} (sink : σ → Root → Except Fault σ) (hthreads : ∀ t ∈ threads, t.Numbered)
    (h1 : 1 ≤ ordinal) (hn : ordinal ≤ n) (s : σ) :
    scan sink g threads ordinal n s = (share g threads ordinal n).foldlM (deliver sink) (s, {}) := by
  have hrest : ∀ state, threads.foldlM (deliverThread sink n ordinal) state =
      ((threads.filter fun t => collector n t = ordinal).flatMap (·.roots)).foldlM (deliver sink)
        state := by
    induction threads with
    | nil => exact fun _ => rfl
    | cons t rest ih =>
      intro state
      have htail := ih fun t ht => hthreads t (List.mem_cons_of_mem _ ht)
      have hhead : deliverThread sink n ordinal state t =
          if collector n t = ordinal then t.roots.foldlM (deliver sink) state else .ok state := by
        rw [deliverThread, collectorOf_eq (hthreads t List.mem_cons_self)]
        rfl
      rw [List.foldlM_cons, hhead]
      by_cases ht : collector n t = ordinal
      · rw [if_pos ht, List.filter_cons_of_pos (by simpa using ht), List.flatMap_cons,
          List.foldlM_append]
        exact congrArg _ (funext htail)
      · rw [if_neg ht, List.filter_cons_of_neg (by simpa using ht)]
        exact htail state
  simp only [scan, partition, if_pos (And.intro h1 hn), ok_bind]
  rw [share, List.foldlM_append]
  exact congrArg _ (funext hrest)

theorem record_ofRoots (c : RootCounts) (root : Root) (rest : List Root) :
    (c.record root).add (.ofRoots rest) = c.add (.ofRoots (root :: rest)) := by
  cases root <;>
    simp only [RootCounts.record, RootCounts.add, RootCounts.ofRoots, List.countP_cons,
      Root.isLocation, Root.isInterior, Root.isValue, if_true, Bool.false_eq_true, if_false,
      RootCounts.mk.injEq] <;> omega

-- Roots are delivered in order, and counted by their kinds.
theorem foldlM_deliver {σ : Type} (sink : σ → Root → Except Fault σ) (roots : List Root) (s : σ)
    (c : RootCounts) : roots.foldlM (deliver sink) (s, c) =
      roots.foldlM sink s >>= fun s => .ok (s, c.add (.ofRoots roots)) := by
  induction roots generalizing s c with
  | nil => rfl
  | cons root rest ih =>
    rw [List.foldlM_cons, List.foldlM_cons, deliver]
    cases hsink : sink s root with
    | error e => rfl
    | ok s' =>
      simp only [ok_bind, ih, record_ofRoots]

-- Numbers in a row, chunk by chunk.
theorem flatMap_chunks (chunk k : Nat) :
    ((List.range k).flatMap fun i => List.range' (i * chunk) chunk) = List.range (k * chunk) := by
  induction k with
  | zero => simp
  | succ k ih =>
    rw [List.range_succ, List.flatMap_append, ih, List.flatMap_singleton, List.range_eq_range',
      List.range_eq_range', Nat.succ_mul]
    have h := List.range'_append_1 (s := 0) (m := k * chunk) (n := chunk)
    simpa using h

-- All chunks together are not longer than the table.
theorem chunks_le (slots n : Nat) : n * (slots / n / 2 * 2) ≤ slots := by
  have h1 := Nat.div_mul_le_self (slots / n) 2
  have h2 := Nat.mul_div_le slots n
  calc n * (slots / n / 2 * 2) ≤ n * (slots / n) := Nat.mul_le_mul_left n h1
    _ ≤ slots := h2

theorem flatMap_slots (slots : Nat) (hn : 0 < n) :
    ((List.range n).flatMap fun i =>
      List.range' (first slots n (i + 1)) (stop slots n (i + 1) - first slots n (i + 1))) =
        List.range slots := by
  obtain ⟨k, rfl⟩ : ∃ k, n = k + 1 := ⟨n - 1, by omega⟩
  have hfit : k * (slots / (k + 1) / 2 * 2) ≤ slots :=
    (Nat.mul_le_mul_right _ k.le_succ).trans (chunks_le slots (k + 1))
  have hinit : ((List.range k).flatMap fun i => List.range' (first slots (k + 1) (i + 1))
      (stop slots (k + 1) (i + 1) - first slots (k + 1) (i + 1))) =
        List.range (k * (slots / (k + 1) / 2 * 2)) := by
    rw [← flatMap_chunks]
    refine List.flatMap_congr fun i hi => ?_
    have hik : i ≠ k := (List.mem_range.mp hi).ne
    rw [first, stop, if_neg (by omega), Nat.add_sub_cancel, Nat.succ_mul, Nat.add_sub_cancel_left]
  rw [List.range_succ, List.flatMap_append, hinit, List.flatMap_singleton, first, stop, if_pos rfl,
    Nat.add_sub_cancel, List.range_eq_range', List.range_eq_range']
  have h := List.range'_append_1 (s := 0) (m := k * (slots / (k + 1) / 2 * 2))
    (n := slots - k * (slots / (k + 1) / 2 * 2))
  simpa [Nat.add_sub_cancel' hfit] using h

-- Every number below `n` gets what falls to it.
theorem flatMap_filter_perm {α : Type} (f : Thread → List α) (place : Thread → Nat)
    (hplace : ∀ t ∈ threads, place t < n) :
    ((List.range n).flatMap fun i => (threads.filter fun t => place t = i).flatMap f).Perm
      (threads.flatMap f) := by
  induction threads with
  | nil => simp
  | cons t rest ih =>
    have hsplit : ∀ i, (((t :: rest).filter fun t => place t = i).flatMap f) =
        (if place t = i then f t else []) ++ (rest.filter fun t => place t = i).flatMap f := by
      intro i
      by_cases ht : place t = i
      · rw [if_pos ht, List.filter_cons_of_pos (by simpa using ht), List.flatMap_cons]
      · rw [if_neg ht, List.filter_cons_of_neg (by simpa using ht), List.nil_append]
    have hone : ∀ k, (List.range k).flatMap (fun i => if place t = i then f t else []) =
        if place t < k then f t else [] := by
      intro k
      induction k with
      | zero => simp
      | succ k ihk =>
        rw [List.range_succ, List.flatMap_append, ihk, List.flatMap_singleton]
        split_ifs <;> first | omega | simp
    simp only [hsplit, List.flatMap_cons]
    refine (List.flatMap_append_perm _ _ _).symm.trans ?_
    rw [hone, if_pos (hplace t List.mem_cons_self)]
    exact (ih fun t ht => hplace t (List.mem_cons_of_mem _ ht)).append_left _

-- Together the collectors take every root once.
theorem shares_perm (g : Globals) (threads : List Thread) (hn : 0 < n) :
    ((List.range n).flatMap fun i => share g threads (i + 1) n).Perm
      (g.roots ++ threads.flatMap (·.roots)) := by
  refine (List.flatMap_append_perm _ _ _).symm.trans (List.Perm.append (.of_eq ?_) ?_)
  · rw [Globals.roots, ← flatMap_slots g.capacity hn, List.map_flatMap]
  · have hperm := flatMap_filter_perm (n := n) (·.roots)
      (fun t => (t.ordinal.getD 0 - 1) % n) fun t (_ : t ∈ threads) => Nat.mod_lt _ hn
    simpa [collector] using hperm

-- Ranges of slots in a row, numbered from zero: all but the last have one even length, and each of so
-- many slots lies in exactly one of them.
structure Division (slots n : Nat) (range : Nat → Nat × Nat) : Prop where
  start : (range 0).1 = 0
  consecutive : ∀ i, i + 1 < n → (range (i + 1)).1 = (range i).2
  stop : (range (n - 1)).2 = slots
  even : ∃ half, ∀ i, i + 1 < n → (range i).2 = (range i).1 + 2 * half
  ordered : ∀ i < n, (range i).1 ≤ (range i).2
  cover : ((List.range n).flatMap fun i => List.range' (range i).1 ((range i).2 - (range i).1)) =
    List.range slots

theorem division (slots : Nat) (hn : 0 < n) :
    Division slots n fun i => (first slots n (i + 1), Roots.stop slots n (i + 1)) where
  start := by simp only [first, Nat.zero_add, Nat.sub_self, Nat.zero_mul]
  consecutive i hi := by simp only [first, Roots.stop, Nat.add_sub_cancel, if_neg hi.ne]
  stop := by simp only [Roots.stop, Nat.sub_add_cancel hn, if_true]
  even := ⟨slots / n / 2, fun i hi => by
    simp only [first, Roots.stop, Nat.add_sub_cancel, if_neg hi.ne, Nat.succ_mul,
      Nat.mul_comm 2]⟩
  ordered i hi := by
    have hle := chunks_le slots n
    simp only [first, Roots.stop, Nat.add_sub_cancel]
    split_ifs
    · exact (Nat.mul_le_mul_right _ hi.le).trans hle
    · exact Nat.mul_le_mul_right _ i.le_succ
  cover := flatMap_slots slots hn

-- The collectors divide the slots of the table between them, and together they deliver the address of
-- every slot once, as a location, and what lies on the stacks as what it is. Each tells what it has
-- delivered.
theorem scans_deliver (g : Globals) (threads : List Thread) (hn : 0 < n)
    (hthreads : ∀ t ∈ threads, t.Numbered) :
    (∃ range, Division g.capacity n range ∧
      ∀ i < n, partition g.capacity n (i + 1) = .ok (range i)) ∧
    ∃ (address : Nat → Nat) (delivered : Nat → List Root), Function.Injective address ∧
      (∀ i < g.capacity, g.slot i = .ok (address i)) ∧
      ((List.range n).flatMap delivered).Perm
        ((List.range g.capacity).map (fun i => .location (address i)) ++
          threads.flatMap (·.roots)) ∧
      ∀ i < n, ∀ {σ : Type} (sink : σ → Root → Except Fault σ) (s : σ),
        scan sink g threads (i + 1) n s =
          (delivered i).foldlM sink s >>= fun s => .ok (s, .ofRoots (delivered i)) := by
  refine ⟨⟨_, division g.capacity hn, fun i hi => if_pos ⟨Nat.le_add_left 1 i, hi⟩⟩,
    fun i => g.base + wordBytes * i, fun i => share g threads (i + 1) n, fun i j hij => ?_,
    fun i hi => ?_, shares_perm g threads hn, fun i hi σ sink s => ?_⟩
  · simp only [wordBytes] at hij
    omega
  · simp only [Globals.slot, checkIndex, if_pos hi, ok_bind]
  · rw [scan_eq sink hthreads (Nat.le_add_left 1 i) hi, foldlM_deliver]
    simp only [RootCounts.add, RootCounts.ofRoots, Nat.zero_add]

-- Two collectors share five slots and the stacks of two threads.
theorem scans_deliver_two : ∃ (address : Nat → Nat) (delivered : Nat → List Root),
    (∀ i < 5, (Globals.mk 64 5).slot i = .ok (address i)) ∧
    ((List.range 2).flatMap delivered).Perm
      ((List.range 5).map (fun i => .location (address i)) ++ [.interior 8 104, .value 16]) ∧
    RootCounts.ofRoots (delivered 1) = ⟨3, 1, 0⟩ := by
  obtain ⟨-, address, delivered, -, hslot, hperm, hscan⟩ := scans_deliver (n := 2) ⟨64, 5⟩
    [⟨some 4, [.interior 8 104]⟩, ⟨some 1, [.value 16]⟩] (by decide) (by simp [Thread.Numbered])
  have hcount : scan (fun (_ : Unit) _ => .ok ()) ⟨64, 5⟩
      [⟨some 4, [.interior 8 104]⟩, ⟨some 1, [.value 16]⟩] 2 2 () = .ok ((), ⟨3, 1, 0⟩) := rfl
  obtain ⟨_, -, heq⟩ := bind_eq_ok.mp ((hscan 1 (by decide) _ ()).symm.trans hcount)
  exact ⟨address, delivered, hslot, hperm, (Prod.mk.inj (Except.ok.inj heq)).2⟩

end Roots

end Reclaim
