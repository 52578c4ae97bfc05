import Akio.Timer.Sift
import Mathlib.Data.List.Nodup

/-!
# The heap operations

One spec per function of the heap, over the timers `v 0`, .. , `v (n - 1)` that it holds.
-/

namespace Akio.Timer

open HeapOrder

variable {C D : Type} {heap heap' : timer_heap C D} {timers : Store (timer C D)} {v v' : Nat → Nat}
  {n h p q : Nat} {x w : Int}
  {held : List Nat}

/-- The slots hold `v 0`, .. , `v (n - 1)`, in heap order and with the right indices. -/
structure HeapOf (heap : timer_heap C D) (v : Nat → Nat) (n : Nat) : Prop where
  now : heap.now = n
  room : heap.now ≤ heap.all
  full : Full heap.tes heap.timers v n
  order : Ordered (fun i => due heap.timers (v i)) n

/-- Only the heap itself and the indices of the timers `P` have changed. -/
structure Kept (heap heap' : timer_heap C D) (P : Nat → Prop) : Prop where
  maxsize : heap'.maxsize = heap.maxsize
  allocs : heap'.allocs = heap.allocs
  size : heap'.size = heap.size
  head_next : heap'.head_next = heap.head_next
  tail : heap'.tail = heap.tail
  timers : Reindexed heap.timers heap'.timers P

theorem HeapOf.idx_member (hs : HeapOf heap v n) (hp : Member v n p) :
    ∃ i, i < n ∧ v i = p ∧ idx heap.timers p = i := by
  obtain ⟨i, hi, rfl⟩ := hp
  exact ⟨i, hi, rfl, hs.full.back i hi (by omega)⟩

theorem HeapOf.live (hs : HeapOf heap v n) (hp : Member v n p) : heap.timers.Live p := by
  obtain ⟨i, hi, rfl⟩ := hp
  exact hs.full.live i hi

theorem HeapOf.congr (hs : HeapOf heap v n) (hnow : heap'.now = heap.now) (hall : heap'.all = heap.all)
    (htes : heap'.tes = heap.tes) (hlive : ∀ p, Member v n p → heap'.timers.Live p)
    (hidx : ∀ p, Member v n p → idx heap'.timers p = idx heap.timers p)
    (hdue : ∀ p, Member v n p → due heap'.timers p = due heap.timers p) : HeapOf heap' v n := by
  refine ⟨hnow.trans hs.now, by rw [hnow, hall]; exact hs.room, ?_, ?_⟩
  · refine ⟨?_, ?_, fun i hi => hlive _ (Member.of_lt hi), hs.full.inj⟩
    · rw [htes]
      exact hs.full.slot
    · intro i hi hin
      rw [hidx _ (Member.of_lt hi)]
      exact hs.full.back i hi hin
  · intro i hpos hi
    have hpi := parent_lt hpos
    show due heap'.timers _ ≤ due heap'.timers _
    rw [hdue _ (Member.of_lt hi), hdue _ (Member.of_lt (by omega))]
    exact hs.order i hpos hi

theorem Holed.reindex_off {tes : Nat → Ptr} (hs : Holed tes timers v n h) (hp : ¬ Member v n p)
    (hlive : timers.Live p) : Holed tes (reindex timers p x) v n h where
  slot := hs.slot
  back i hi hih := by
    rw [idx_reindex hlive, Function.update_of_ne]
    · exact hs.back i hi hih
    · rintro rfl
      exact hp (Member.of_lt hi)
  live i hi := Store.adjust_live.mpr (hs.live i hi)
  inj := hs.inj

/-! ## Another time for a timer -/

/-- `timers` with another time for `p`. -/
abbrev retime (timers : Store (timer C D)) (p : Nat) (w : Int) : Store (timer C D) :=
  timers.adjust p fun n => { n with when_msec := w }

theorem idx_retime : idx (retime timers p w) = idx timers := Store.field_adjust_keep fun _ => rfl

theorem due_retime (hp : timers.Live p) : due (retime timers p w) = Function.update (due timers) p w :=
  Store.field_adjust_set (fun _ => rfl) hp

theorem Holed.retime {tes : Nat → Ptr} {h : Nat} (hs : Holed tes timers v n h) :
    Holed tes (retime timers p w) v n h where
  slot := hs.slot
  back := by
    rw [idx_retime]
    exact hs.back
  live i hi := Store.adjust_live.mpr (hs.live i hi)
  inj := hs.inj

/-! ## `_heap_top` -/

theorem heap_top_spec (hs : HeapOf heap v n) :
    heap_top heap = .done (if n = 0 then none else some (v 0)) := by
  unfold heap_top getSlot
  rcases Nat.eq_zero_or_pos n with rfl | hpos
  · rw [if_neg (by simp [hs.now]), if_pos rfl]
  · have := hs.now
    rw [if_pos (by omega), if_pos ⟨by omega, by omega⟩, if_neg (by omega)]
    exact congrArg Outcome.done (hs.full.slot 0 hpos (by omega))

theorem HeapOf.top_le (hs : HeapOf heap v n) (hp : Member v n p) :
    due heap.timers (v 0) ≤ due heap.timers p := by
  obtain ⟨i, hi, rfl⟩ := hp
  exact hs.order.root_le hi

theorem get_shortest_msec_spec (clock : Int) (hs : HeapOf heap v n) :
    get_shortest_msec clock heap =
      .done (if n = 0 then -1 else max 0 (min (due heap.timers (v 0) - clock) INT32_MAX)) := by
  unfold get_shortest_msec
  rw [heap_top_spec hs, Outcome.done_bind]
  by_cases hempty : n = 0
  · simp only [if_pos hempty]
    rfl
  · obtain ⟨a, ha⟩ := Store.live_iff.mp (hs.live (Member.of_lt (show 0 < n by omega)))
    have hdue : due heap.timers (v 0) = a.when_msec := Store.field_of_cell ha
    simp only [if_neg hempty, Option.some_ne_none, if_false]
    rw [Store.read_of_cell ha, Outcome.done_bind, hdue]
    apply congrArg Outcome.done
    split_ifs <;> omega

/-! ## `_heap_push` -/

theorem reserve_spec {realloc : Bool} (hroom : heap.now ≤ heap.all)
    (hgrant : realloc = true ∨ heap.now < heap.all) :
    ∃ all, heap.now + 1 ≤ all ∧
      (if heap.all < heap.now + 1 then reserve realloc heap (heap.now + 1) else (heap, 0)) =
        ({ heap with all }, 0) := by
  unfold reserve
  by_cases hfull : heap.all < heap.now + 1
  · have hrealloc : realloc = true := by
      apply hgrant.resolve_right
      omega
    rw [if_pos hfull, if_pos hrealloc]
    refine ⟨_, ?_, rfl⟩
    split_ifs <;> omega
  · rw [if_neg hfull]
    exact ⟨heap.all, by omega, rfl⟩

theorem member_push (hp : v' n = p) (hv : ∀ i < n, v' i = v i) :
    Member v' (n + 1) q ↔ q = p ∨ Member v n q := by
  constructor
  · rintro ⟨i, hi, rfl⟩
    rcases Nat.lt_succ_iff_lt_or_eq.mp hi with hlt | rfl
    · exact Or.inr ⟨i, hlt, (hv i hlt).symm⟩
    · exact Or.inl hp
  · rintro (rfl | ⟨i, hi, rfl⟩)
    · exact ⟨n, by omega, hp⟩
    · exact ⟨i, by omega, hv i hi⟩

theorem HeapOf.push_hole (hs : HeapOf heap v n) (hlive : heap.timers.Live p) (hnew : ¬ Member v n p)
    (hp : v' n = p) (hv : ∀ i < n, v' i = v i) : Holed heap.tes heap.timers v' (n + 1) n := by
  have hsame : ∀ i < n + 1, i ≠ n → v' i = v i := fun i hi hin => hv i (by omega)
  refine ⟨?_, ?_, ?_, ?_⟩
  · intro i hi hin
    rw [hsame i hi hin]
    exact hs.full.slot i (by omega) hin
  · intro i hi hin
    rw [hsame i hi hin]
    exact hs.full.back i (by omega) hin
  · intro i hi
    by_cases hin : i = n
    · rwa [hin, hp]
    · rw [hsame i hi hin]
      exact hs.full.live i (by omega)
  · intro i hi j hj heq
    by_cases hin : i = n <;> by_cases hjn : j = n
    · omega
    · rw [hin, hp, hsame j hj hjn] at heq
      exact absurd ⟨j, by omega, heq.symm⟩ hnew
    · rw [hjn, hp, hsame i hi hin] at heq
      exact absurd ⟨i, by omega, heq⟩ hnew
    · rw [hsame i hi hin, hsame j hj hjn] at heq
      exact hs.full.inj i (by omega) j (by omega) heq

theorem heap_push_spec (realloc : Bool) (hs : HeapOf heap v n) (hlive : heap.timers.Live p)
    (hnew : ¬ Member v n p) (hgrant : realloc = true ∨ heap.now < heap.all) :
    ∃ heap' v', heap_push realloc heap (some p) = .done (heap', 0) ∧ HeapOf heap' v' (n + 1) ∧
      (∀ q, Member v' (n + 1) q ↔ q = p ∨ Member v n q) ∧
      Kept heap heap' (fun q => q = p ∨ Member v n q) := by
  have hnow := hs.now
  obtain ⟨all, hall, hreserve⟩ := reserve_spec hs.room hgrant
  have hp : Function.update v n p n = p := Function.update_self n p v
  have hv : ∀ i < n, Function.update v n p i = v i := fun i hi => Function.update_of_ne (by omega) p v
  have hup := hs.order.push fun i hi => congrArg (due heap.timers) (hv i hi)
  have hloop (grown : timer_heap C D) (hn : grown.now = n) (ha : (n : Int) + 1 ≤ grown.all) :=
    shiftUpLoop_spec (n + 1) (hs.push_hole hlive hnew hp hv) (Nat.lt_succ_self n)
      (show ((n + 1 : Nat) : Int) ≤ grown.now + 1 by omega) (show ((n + 1 : Nat) : Int) ≤ grown.all by omega)
      hup (Nat.lt_succ_self n)
  obtain ⟨tes, timers, v', hrun, hsettled⟩ := hloop { heap with all } hnow (hnow ▸ hall)
  have hmem (q : Nat) : Member v' (n + 1) q ↔ q = p ∨ Member v n q :=
    (hsettled.members q).trans (member_push hp hv)
  refine ⟨{ heap with now := heap.now + 1, all, tes, timers }, v', ?_, ⟨?_, hall, hsettled.full,
    hsettled.order⟩, hmem, ⟨rfl, rfl, rfl, rfl, rfl, hsettled.same.mono fun q => (member_push hp hv).mp⟩⟩
  · rw [hp, ← hnow] at hrun
    have hfuel : heap.now.toNat = n := by omega
    have hup' : shift_up { heap with all } heap.now (some p) =
        .done { heap with all, tes, timers } := by
      unfold shift_up
      exact (congrArg (fun k => shiftUpLoop (some p) (k + 1) _ heap.now) hfuel).trans hrun
    unfold heap_push
    rw [hreserve]
    exact (congrArg (· >>= _) hup').trans rfl
  · show heap.now + 1 = ((n + 1 : Nat) : Int)
    omega

theorem heap_push_refused {realloc : Bool} (hroom : heap.now ≤ heap.all)
    (hrefuse : ¬ (realloc = true ∨ heap.now < heap.all)) : heap_push realloc heap p = .done (heap, -1) := by
  obtain ⟨hrealloc, hfull⟩ := not_or.mp hrefuse
  unfold heap_push reserve
  rw [if_pos (by omega), if_neg hrealloc]
  rfl

/-! ## `_heap_adjust` -/

/-- The heap was in order until the time of the timer `p` in it changed. -/
theorem heap_adjust_spec {key : Nat → Int} (hnow : heap.now = n) (hroom : heap.now ≤ heap.all)
    (hfull : Full heap.tes heap.timers v n) (ho : Ordered key n) (hp : Member v n p)
    (hkey : ∀ i < n, v i ≠ p → due heap.timers (v i) = key i) :
    ∃ heap' v', heap_adjust heap (some p) = .done (heap', 0) ∧ HeapOf heap' v' n ∧
      (∀ q, Member v' n q ↔ Member v n q) ∧ Kept heap heap' (Member v n) := by
  obtain ⟨h, hh, rfl⟩ := hp
  obtain ⟨a, ha⟩ := Store.live_iff.mp (hfull.live h hh)
  have hidx : a.min_heap_idx = h := (Store.field_of_cell ha).symm.trans (hfull.back h hh (by omega))
  have hholed : Holed heap.tes heap.timers v n h :=
    ⟨fun i hi _ => hfull.slot i hi (by omega), fun i hi _ => hfull.back i hi (by omega), hfull.live, hfull.inj⟩
  obtain ⟨tes, timers, v', hrun, hsettled⟩ := shift_spec hholed hh hnow (hnow ▸ hroom) ho
    fun i hi hih => hkey i hi fun heq => hih (hfull.inj i hi h hh heq)
  refine ⟨{ heap with tes, timers }, v', ?_, ⟨hnow, hroom, hsettled.full, hsettled.order⟩,
    hsettled.members, ⟨rfl, rfl, rfl, rfl, rfl, hsettled.same⟩⟩
  unfold heap_adjust
  rw [Store.read_of_cell ha, Outcome.done_bind, hidx]
  exact (congrArg (· >>= _) hrun).trans rfl

/-! ## `_heap_delete` -/

theorem HeapOf.delete_hole (hs : HeapOf heap v (n + 1)) (hp : v' h = v n)
    (hv : ∀ i < n, i ≠ h → v' i = v i) : Holed heap.tes heap.timers v' n h := by
  refine ⟨?_, ?_, ?_, ?_⟩
  · intro i hi hih
    rw [hv i hi hih]
    exact hs.full.slot i (by omega) (by omega)
  · intro i hi hih
    rw [hv i hi hih]
    exact hs.full.back i (by omega) (by omega)
  · intro i hi
    by_cases hih : i = h
    · rw [hih, hp]
      exact hs.full.live n (by omega)
    · rw [hv i hi hih]
      exact hs.full.live i (by omega)
  · intro i hi j hj heq
    by_cases hih : i = h <;> by_cases hjh : j = h
    · omega
    · rw [hih, hp, hv j hj hjh] at heq
      have := hs.full.inj n (by omega) j (by omega) heq
      omega
    · rw [hjh, hp, hv i hi hih] at heq
      have := hs.full.inj i (by omega) n (by omega) heq
      omega
    · rw [hv i hi hih, hv j hj hjh] at heq
      exact hs.full.inj i (by omega) j (by omega) heq

theorem HeapOf.member_delete (hs : HeapOf heap v (n + 1)) (hh : h < n) (hp : v' h = v n)
    (hv : ∀ i < n, i ≠ h → v' i = v i) : Member v' n q ↔ q ≠ v h ∧ Member v (n + 1) q := by
  constructor
  · rintro ⟨i, hi, rfl⟩
    by_cases hih : i = h
    · rw [hih, hp]
      refine ⟨fun heq => ?_, ⟨n, by omega, rfl⟩⟩
      have := hs.full.inj n (by omega) h (by omega) heq
      omega
    · rw [hv i hi hih]
      exact ⟨fun heq => hih (hs.full.inj i (by omega) h (by omega) heq), ⟨i, by omega, rfl⟩⟩
  · rintro ⟨hne, i, hi, rfl⟩
    have hih : i ≠ h := by
      rintro rfl
      exact hne rfl
    rcases Nat.lt_succ_iff_lt_or_eq.mp hi with hlt | rfl
    · exact ⟨i, hlt, hv i hlt hih⟩
    · exact ⟨h, hh, hp⟩

theorem HeapOf.shift_into (hs : HeapOf heap v (n + 1)) (hh : h < n) :
    ∃ tes timers v', shift { heap with now := heap.now - 1 } h (some (v n)) =
      .done { heap with now := heap.now - 1, tes, timers } ∧ Full tes timers v' n ∧
      Ordered (fun i => due timers (v' i)) n ∧ (∀ q, Member v' n q ↔ q ≠ v h ∧ Member v (n + 1) q) ∧
      Reindexed heap.timers timers (Member v (n + 1)) := by
  have hnow := hs.now
  have hroom := hs.room
  have hp : Function.update v h (v n) h = v n := Function.update_self h (v n) v
  have hv : ∀ i < n, i ≠ h → Function.update v h (v n) i = v i :=
    fun i _ hih => Function.update_of_ne hih (v n) v
  have hshift (short : timer_heap C D) (hn : short.now = n) (ha : (n : Int) ≤ short.all) :=
    shift_spec (hs.delete_hole hp hv) hh hn ha (fun i hi hin => hs.order i hi (by omega))
      fun i hi hih => congrArg (due heap.timers) (hv i hi hih)
  obtain ⟨tes, timers, v', hrun, hsettled⟩ := hshift { heap with now := heap.now - 1 }
    (show heap.now - 1 = (n : Int) by omega) (show (n : Int) ≤ heap.all by omega)
  rw [hp] at hrun
  have hmem (q : Nat) := hs.member_delete (q := q) hh hp hv
  exact ⟨tes, timers, v', hrun, hsettled.full, hsettled.order, fun q => (hsettled.members q).trans (hmem q),
    hsettled.same.mono fun q hq => ((hmem q).mp hq).2⟩

theorem HeapOf.shift_back (hs : HeapOf heap v (n + 1)) :
    ∃ tes timers v', shift { heap with now := heap.now - 1 } n (some (v n)) =
      .done { heap with now := heap.now - 1, tes, timers } ∧ Full tes timers v' n ∧
      Ordered (fun i => due timers (v' i)) n ∧ (∀ q, Member v' n q ↔ q ≠ v n ∧ Member v (n + 1) q) ∧
      Reindexed heap.timers timers (Member v (n + 1)) := by
  have hnow := hs.now
  have hroom := hs.room
  have hlive := hs.full.live n (by omega)
  have hfull : Full heap.tes heap.timers v n := ⟨fun i hi _ => hs.full.slot i (by omega) (by omega),
    fun i hi _ => hs.full.back i (by omega) (by omega), fun i hi => hs.full.live i (by omega),
    fun i hi j hj => hs.full.inj i (by omega) j (by omega)⟩
  have hout : ¬ Member v n (v n) := by
    rintro ⟨i, hi, heq⟩
    have := hs.full.inj i (by omega) n (by omega) heq
    omega
  have hrun (short : timer_heap C D) (hn : short.now = n) (ha : (n : Int) < short.all) :=
    (show shift (withSlots short heap.tes heap.timers) n (some (v n)) = _ from
      shift_last hfull hn ha hlive fun hpos => hs.order n hpos (by omega))
  refine ⟨_, _, v, hrun { heap with now := heap.now - 1 } (show heap.now - 1 = (n : Int) by omega)
    (show (n : Int) < heap.all by omega), ?_, ?_, ?_, reindexed_adjust (Member.of_lt (by omega)) hlive⟩
  · have hoff := hfull.reindex_off (x := n) hout hlive
    refine ⟨fun i hi hin => ?_, hoff.back, hoff.live, hoff.inj⟩
    rw [Function.update_of_ne (by omega)]
    exact hfull.slot i hi hin
  · rw [due_reindex]
    exact fun i hi hin => hs.order i hi (by omega)
  · intro q
    constructor
    · rintro ⟨i, hi, rfl⟩
      exact ⟨fun heq => hout ⟨i, hi, heq⟩, ⟨i, by omega, rfl⟩⟩
    · rintro ⟨hne, i, hi, rfl⟩
      refine ⟨i, ?_, rfl⟩
      apply Nat.lt_of_le_of_ne (by omega)
      rintro rfl
      exact hne rfl

theorem heap_delete_spec (hs : HeapOf heap v n) (hp : Member v n p) :
    ∃ heap' v', heap_delete heap (some p) = .done (heap', 0) ∧ HeapOf heap' v' (n - 1) ∧
      (∀ q, Member v' (n - 1) q ↔ q ≠ p ∧ Member v n q) ∧ Kept heap heap' (Member v n) ∧
      idx heap'.timers p = -1 := by
  obtain ⟨h, hh, rfl⟩ := hp
  obtain ⟨k, rfl⟩ : ∃ k, n = k + 1 := ⟨n - 1, by omega⟩
  rw [Nat.add_sub_cancel]
  have hnow := hs.now
  have hroom := hs.room
  have hlive := hs.full.live h hh
  obtain ⟨a, ha⟩ := Store.live_iff.mp hlive
  have hidx : a.min_heap_idx = h := (Store.field_of_cell ha).symm.trans (hs.full.back h hh (by omega))
  have hlast : getSlot heap (heap.now - 1) = .done (some (v k)) := by
    rw [show heap.now - 1 = (k : Int) by omega]
    exact hs.full.getSlot (by omega) (by omega) (by omega)
  obtain ⟨tes, timers, v', hrun, hfull, hord, hmem, hsame⟩ : ∃ tes timers v',
      shift { heap with now := heap.now - 1 } h (some (v k)) =
        .done { heap with now := heap.now - 1, tes, timers } ∧ Full tes timers v' k ∧
      Ordered (fun i => due timers (v' i)) k ∧ (∀ q, Member v' k q ↔ q ≠ v h ∧ Member v (k + 1) q) ∧
      Reindexed heap.timers timers (Member v (k + 1)) := by
    rcases Nat.lt_succ_iff_lt_or_eq.mp hh with hlt | rfl
    · exact hs.shift_into hlt
    · exact hs.shift_back
  have hlive' := (hsame.live _).mpr hlive
  refine ⟨{ heap with now := heap.now - 1, tes, timers := reindex timers (v h) (-1) }, v', ?_,
    ⟨?_, ?_, ?_, ?_⟩, hmem, ⟨rfl, rfl, rfl, rfl, rfl, ?_⟩, ?_⟩
  · unfold heap_delete
    rw [hlast, Outcome.done_bind]
    refine (congrArg (· >>= _) (Store.read_of_cell ha)).trans ?_
    rw [Outcome.done_bind, hidx]
    refine (congrArg (· >>= _) hrun).trans ?_
    rw [Outcome.done_bind]
    exact (congrArg (· >>= _) (Store.modify_live hlive')).trans rfl
  · show heap.now - 1 = (k : Int)
    omega
  · show heap.now - 1 ≤ heap.all
    omega
  · exact hfull.reindex_off (fun hm => ((hmem _).mp hm).1 rfl) hlive'
  · rw [due_reindex]
    exact hord
  · exact hsame.trans (reindexed_adjust (Member.of_lt hh) hlive')
  · rw [idx_reindex hlive', Function.update_self]

/-! ## The whole heap -/

/-- The heap holds the timers `held`, each in one slot. -/
structure MinHeap (heap : timer_heap C D) (held : List Nat) : Prop where
  nodup : held.Nodup
  bounds : 0 ≤ heap.now ∧ heap.now ≤ heap.all
  slots : ((List.range heap.now.toNat).map heap.tes).Perm (held.map some)
  order : ∀ i : Nat, 0 < i → i < heap.now → ∀ p q, heap.tes ((i - 1) / 2) = some p → heap.tes i = some q →
    due heap.timers p ≤ due heap.timers q
  back : ∀ p ∈ held, 0 ≤ idx heap.timers p ∧ idx heap.timers p < heap.now ∧
    heap.tes (idx heap.timers p).toNat = some p
  top : if held = [] then heap_top heap = .done none
    else ∃ p ∈ held, heap_top heap = .done (some p) ∧ ∀ q ∈ held, due heap.timers p ≤ due heap.timers q

theorem HeapOf.minHeap (hs : HeapOf heap v n) (hnodup : held.Nodup) (hmem : ∀ p, p ∈ held ↔ Member v n p) :
    MinHeap heap held := by
  have hnow := hs.now
  have hroom := hs.room
  have hn : heap.now.toNat = n := by omega
  have hslot (i : Nat) (hi : i < n) := hs.full.slot i hi (by omega)
  refine ⟨hnodup, ⟨by omega, hroom⟩, ?_, ?_, ?_, ?_⟩
  · have hmap : (List.range n).map heap.tes = ((List.range n).map v).map some := by
      rw [List.map_map]
      exact List.map_congr_left fun i hi => hslot i (List.mem_range.mp hi)
    rw [hn, hmap]
    apply List.Perm.map
    apply (List.perm_ext_iff_of_nodup ?_ hnodup).mpr
    · intro p
      rw [hmem]
      unfold Member
      simp only [List.mem_map, List.mem_range]
    · apply List.Nodup.map_on _ List.nodup_range
      intro i hi j hj
      exact hs.full.inj i (List.mem_range.mp hi) j (List.mem_range.mp hj)
  · intro i hpos hi p q hp hq
    have hpi := parent_lt hpos
    rw [show (i - 1) / 2 = parent i from rfl, hslot _ (by omega)] at hp
    rw [hslot _ (by omega)] at hq
    rw [← Option.some.inj hp, ← Option.some.inj hq]
    exact hs.order i hpos (by omega)
  · intro p hp
    obtain ⟨i, hi, rfl, hidx⟩ := hs.idx_member ((hmem p).mp hp)
    rw [hidx, Int.toNat_natCast]
    exact ⟨by omega, by omega, hslot i hi⟩
  · have htop := heap_top_spec hs
    by_cases hnil : n = 0
    · have hempty : held = [] := by
        apply List.eq_nil_iff_forall_not_mem.mpr
        intro p hp
        obtain ⟨i, hi, -⟩ := (hmem p).mp hp
        omega
      rw [if_pos hempty, htop, if_pos hnil]
    · have hzero : Member v n (v 0) := Member.of_lt (by omega)
      have hheld := (hmem _).mpr hzero
      rw [if_neg (List.ne_nil_of_mem hheld)]
      rw [if_neg hnil] at htop
      exact ⟨v 0, hheld, htop, fun q hq => hs.top_le ((hmem q).mp hq)⟩

end Akio.Timer
