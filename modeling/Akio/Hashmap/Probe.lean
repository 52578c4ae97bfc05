import Akio.Hashmap.Model
import Akio.Lib.FullPeriod
import Akio.Lib.OpenAddress

/-!
# Probe paths

The slots that `hashmap_put`, `hashmap_get` and `hashmap_delete` visit depend on the size and the hash
only. Each of the three ends at the first slot of some kind on the path, and when the size is a power
of two the path visits every slot of the table.
-/

namespace Akio.Hashmap

open Outcome OpenAddress

variable {V : Type}

def probeStep (size : ulong) (p : ulong × ulong) : ulong × ulong :=
  let perturb := p.2 >>> 5
  (((p.1 <<< 2) + p.1 + perturb + 1) &&& (size - 1), perturb)

/-- `index` and `perturb` at the slot number `n` of the path. -/
def probe (size hash : ulong) (n : Nat) : ulong × ulong :=
  (probeStep size)^[n] (hash &&& (size - 1), hash)

def path (size : ulong) (key : CString) (n : Nat) : Nat :=
  (probe size (string_hash key) n).1.toNat

def map_entry.slot (entry : map_entry V) : Slot CString (Option V) :=
  match entry.key with
  | some key => .live key entry.value
  | none => if entry.isdel = TRUE then .deleted else .never

theorem slot_of_key {entry : map_entry V} {key : CString} (hkey : entry.key = some key) :
    entry.slot = .live key entry.value := by
  unfold map_entry.slot
  rw [hkey]

theorem not_live_of_key {entry : map_entry V} (hkey : entry.key = none) : entry.slot.isLive = false := by
  unfold map_entry.slot
  rw [hkey]
  by_cases hdel : entry.isdel = TRUE <;> simp [hdel, Slot.isLive]

/-- The table as slots. -/
def hashmap.table (map : hashmap V) : List (Slot CString (Option V)) :=
  map.entrys.map map_entry.slot

/-- The keys that `compare` takes for `key`. -/
def hashmap.same (map : hashmap V) (key : CString) : CString → Bool :=
  fun k => map.compare k key = 0

@[simp] theorem table_length (map : hashmap V) : map.table.length = map.entrys.length := by
  unfold hashmap.table
  simp

theorem hit_eq (map : hashmap V) (entry : map_entry V) (key : CString) :
    hit map entry key = entry.slot.holds (map.same key) := by
  unfold hit map_entry.slot hashmap.same
  cases entry.key with
  | some k => simp [Slot.holds]
  | none => by_cases hdel : entry.isdel = TRUE <;> simp [hdel, Slot.holds]

/-! ## The loop -/

section Loop

variable {ρ : Type} {entrys : List (map_entry V)} {size : ulong}
  {body : ulong → map_entry V → Option ρ}

/-- The loop ends with `r` at the slot number `n` from `p` on. -/
def Ends (entrys : List (map_entry V)) (size : ulong) (body : ulong → map_entry V → Option ρ)
    (r : ρ) : Nat → ulong × ulong → Prop
  | 0, p => ∃ e, entrys[p.1.toNat]? = some e ∧ body p.1 e = some r
  | n + 1, p => (∃ e, entrys[p.1.toNat]? = some e ∧ body p.1 e = none) ∧
      Ends entrys size body r n (probeStep size p)

theorem probeLoop_done {fuel : Nat} {index perturb : ulong} {r : ρ} :
    probeLoop entrys size body fuel index perturb = .done r ↔
      ∃ n < fuel, Ends entrys size body r n (index &&& (size - 1), perturb) := by
  induction fuel generalizing index perturb with
  | zero => simp [probeLoop]
  | succ fuel ih =>
    have hsplit : (∃ n < fuel + 1, Ends entrys size body r n (index &&& (size - 1), perturb)) ↔
        Ends entrys size body r 0 (index &&& (size - 1), perturb) ∨
          ∃ n < fuel, Ends entrys size body r (n + 1) (index &&& (size - 1), perturb) := by
      constructor
      · rintro ⟨n | n, hn, h⟩
        · exact Or.inl h
        · exact Or.inr ⟨n, by omega, h⟩
      · rintro (h | ⟨n, hn, h⟩)
        · exact ⟨0, by omega, h⟩
        · exact ⟨n + 1, by omega, h⟩
    rw [hsplit]
    simp only [Ends, probeLoop]
    rcases entrys[(index &&& (size - 1)).toNat]? with _ | e
    · simp
    · simp only [ofOption_some, done_bind, Option.some.injEq, exists_eq_left']
      rcases body (index &&& (size - 1)) e with _ | r'
      · simp [ih, probeStep]
      · simp

theorem Ends.iff_iterate {r : ρ} {n : Nat} {p : ulong × ulong} : Ends entrys size body r n p ↔
    (∀ j < n, ∃ e, entrys[((probeStep size)^[j] p).1.toNat]? = some e ∧
      body ((probeStep size)^[j] p).1 e = none) ∧
    ∃ e, entrys[((probeStep size)^[n] p).1.toNat]? = some e ∧
      body ((probeStep size)^[n] p).1 e = some r := by
  induction n generalizing p with
  | zero => simp [Ends]
  | succ n ih =>
    rw [Ends, ih, ← and_assoc, Nat.forall_lt_succ_left]
    rfl

theorem probeLoop_mono {fuel fuel' : Nat} (hle : fuel ≤ fuel') {index perturb : ulong} {r : ρ}
    (h : probeLoop entrys size body fuel index perturb = .done r) :
    probeLoop entrys size body fuel' index perturb = .done r := by
  rw [probeLoop_done] at h ⊢
  obtain ⟨n, hn, hend⟩ := h
  exact ⟨n, by omega, hend⟩

/-- Slot number `n` is the first on the path of `key` with `p`, and holds `e`. -/
structure Finds (entrys : List (map_entry V)) (size : ulong) (p : Slot CString (Option V) → Bool)
    (key : CString) (n : Nat) (e : map_entry V) : Prop where
  passes : Passes (entrys.map map_entry.slot) p (path size key) n
  entry : entrys[path size key n]? = some e
  found : p e.slot

theorem probeLoop_returns {p : Slot CString (Option V) → Bool} {res : ulong → map_entry V → ρ}
    (hbody : ∀ i e, body i e = if p e.slot then some (res i e) else none) {key : CString} {r : ρ} :
    Returns (fun fuel => probeLoop entrys size body fuel (string_hash key) (string_hash key)) r ↔
      ∃ n e, Finds entrys size p key n e ∧ res (probe size (string_hash key) n).1 e = r := by
  unfold Returns
  simp only [probeLoop_done, Ends.iff_iterate, hbody, ← probe.eq_1]
  constructor
  · rintro ⟨fuel, n, -, hpass, e, he, hr⟩
    split at hr
    · refine ⟨n, e, ⟨?_, he, ‹_›⟩, Option.some.inj hr⟩
      intro j hj
      obtain ⟨e', he', hno⟩ := hpass j hj
      exact ⟨e'.slot, by simp [path, he'], by simpa using hno⟩
    · cases hr
  · rintro ⟨n, e, ⟨hpass, he, hp⟩, hr⟩
    refine ⟨n + 1, n, by omega, ?_, e, he, by rw [if_pos hp, hr]⟩
    intro j hj
    obtain ⟨s, hs, hno⟩ := hpass j hj
    rw [List.getElem?_map, Option.map_eq_some_iff] at hs
    obtain ⟨e', he', rfl⟩ := hs
    exact ⟨e', he', by simp [hno]⟩

end Loop

theorem Finds.entrys_ne {entrys : List (map_entry V)} {size : ulong} {p : Slot CString (Option V) → Bool}
    {key : CString} {n : Nat} {e : map_entry V} (h : Finds entrys size p key n e) : entrys ≠ [] := by
  rintro rfl
  cases h.entry

theorem Finds.stops {map : hashmap V} {p : Slot CString (Option V) → Bool} {key : CString} {n : Nat}
    {e : map_entry V} (h : Finds map.entrys map.size p key n e) :
    Stops map.table p (path map.size key) n e.slot :=
  ⟨h.passes, by simp [hashmap.table, h.entry], h.found⟩

theorem Stops.finds {map : hashmap V} {p : Slot CString (Option V) → Bool} {key : CString} {n : Nat}
    {s : Slot CString (Option V)} (h : Stops map.table p (path map.size key) n s) :
    ∃ e, Finds map.entrys map.size p key n e ∧ e.slot = s := by
  have hs := h.slot
  rw [hashmap.table, List.getElem?_map, Option.map_eq_some_iff] at hs
  obtain ⟨e, he, rfl⟩ := hs
  exact ⟨e, ⟨h.passes, he, h.found⟩, rfl⟩

/-! ## Coverage -/

section Coverage

variable {size hash : ulong} {k : Nat}

theorem mask_toNat (hsize : size.toNat = 2 ^ k) (x : ulong) : (x &&& (size - 1)).toNat = x.toNat % 2 ^ k := by
  have hpos := Nat.two_pow_pos k
  have hlt := size.isLt
  have hmask : (size - 1).toNat = 2 ^ k - 1 := by
    rw [BitVec.toNat_sub_of_le (by rw [BitVec.le_def, hsize]; exact hpos), hsize]
    rfl
  rw [BitVec.toNat_and, hmask, Nat.and_two_pow_sub_one_eq_mod]

theorem probe_lt (hsize : size.toNat = 2 ^ k) (n : Nat) : (probe size hash n).1.toNat < 2 ^ k := by
  have hpos := Nat.two_pow_pos k
  unfold probe
  cases n with
  | zero => exact mask_toNat hsize hash ▸ Nat.mod_lt _ hpos
  | succ n =>
    rw [Function.iterate_succ_apply']
    exact mask_toNat hsize _ ▸ Nat.mod_lt _ hpos

theorem perturb_eq (n : Nat) : (probe size hash n).2 = hash >>> (5 * n) := by
  unfold probe
  induction n with
  | zero => simp
  | succ n ih =>
    rw [Function.iterate_succ_apply']
    simp only [probeStep, ih]
    rw [← BitVec.shiftRight_add]
    rfl

/-- From the slot number 13 on `perturb` is 0, and the indexes are those of a generator. -/
theorem probe_tail (hsize : size.toNat = 2 ^ k) (n : Nat) :
    (probe size hash (13 + n)).1.toNat =
      (FullPeriod.next 5 1)^[n] (probe size hash 13).1.toNat % 2 ^ k := by
  have hk : 2 ^ k ∣ 2 ^ 64 := by
    refine Nat.pow_dvd_pow 2 (Nat.le_of_lt ?_)
    exact (Nat.pow_lt_pow_iff_right (by omega)).mp (hsize ▸ size.isLt)
  induction n with
  | zero => exact (Nat.mod_eq_of_lt (probe_lt hsize 13)).symm
  | succ n ih =>
    have hzero : hash >>> (5 * (13 + n + 1)) = 0 := by
      apply BitVec.eq_of_toNat_eq
      rw [BitVec.toNat_ushiftRight, Nat.shiftRight_eq_div_pow]
      apply Nat.div_eq_of_lt
      exact lt_of_lt_of_le hash.isLt (Nat.pow_le_pow_right (by omega) (by omega))
    have hstep : probe size hash (13 + (n + 1)) = probeStep size (probe size hash (13 + n)) :=
      Function.iterate_succ_apply' ..
    have hpert : (probe size hash (13 + n)).2 >>> 5 = 0 := by
      rw [perturb_eq, ← BitVec.shiftRight_add]
      exact hzero
    rw [hstep, Function.iterate_succ_apply']
    simp only [probeStep, hpert, FullPeriod.next]
    rw [mask_toNat hsize]
    generalize (FullPeriod.next 5 1)^[n] (probe size hash 13).1.toNat = x at ih
    generalize (probe size hash (13 + n)).1 = y at ih
    have hval : ((y <<< 2) + y + 0 + 1).toNat = (5 * y.toNat + 1) % 2 ^ 64 := by
      simp only [BitVec.toNat_add, BitVec.toNat_shiftLeft, Nat.shiftLeft_eq]
      simp
      omega
    rw [hval, Nat.mod_mod_of_dvd _ hk, ih, Nat.add_mod, Nat.mul_mod_mod, ← Nat.add_mod]

/-- Within `13 + 2 ^ k` turns the path of a hash visits every slot. -/
theorem probe_covers (hsize : size.toNat = 2 ^ k) (hash : ulong) {i : Nat} (hi : i < 2 ^ k) :
    ∃ n < 13 + 2 ^ k, (probe size hash n).1.toNat = i := by
  obtain ⟨n, hlt, hn⟩ := FullPeriod.reaches 1 0 k (probe size hash 13).1.toNat i hi
  exact ⟨13 + n, by omega, by rw [probe_tail hsize]; exact hn⟩

theorem path_covers (hsize : size.toNat = 2 ^ k) (key : CString) {i : Nat} (hi : i < 2 ^ k) :
    ∃ n, path size key n = i := by
  obtain ⟨n, -, hn⟩ := probe_covers hsize (string_hash key) hi
  exact ⟨n, hn⟩

theorem probe_succ (n : Nat) : probe size hash (n + 1) = probeStep size (probe size hash n) := by
  unfold probe
  rw [Function.iterate_succ_apply']

theorem probeStep_index (hsize : size.toNat = 2 ^ k) (p : ulong × ulong) :
    (probeStep size p).1.toNat = (5#64 * p.1 + p.2 >>> 5 + 1).toNat % 2 ^ k := by
  have hfive : (p.1 <<< 2) + p.1 = 5#64 * p.1 := by
    apply BitVec.eq_of_toNat_eq
    simp only [BitVec.toNat_add, BitVec.toNat_mul, BitVec.toNat_shiftLeft, Nat.shiftLeft_eq]
    simp
    omega
  unfold probeStep
  dsimp only
  rw [mask_toNat hsize, hfive]

theorem probeLoop_ends {ρ : Type} {entrys : List (map_entry V)} {body : ulong → map_entry V → Option ρ}
    (hsize : size.toNat = 2 ^ k) (hlen : entrys.length = 2 ^ k) {n fuel : Nat} (hn : n < fuel)
    (hret : ∃ e, entrys[(probe size hash n).1.toNat]? = some e ∧ (body (probe size hash n).1 e).isSome) :
    ∃ r, probeLoop entrys size body fuel hash hash = .done r := by
  classical
  -- The slots before the first one at which the body returns.
  have hsome : ∃ n, ∃ e, entrys[(probe size hash n).1.toNat]? = some e ∧
      (body (probe size hash n).1 e).isSome := ⟨n, hret⟩
  obtain ⟨e, he, hbody⟩ := Nat.find_spec hsome
  obtain ⟨r, hr⟩ := Option.isSome_iff_exists.mp hbody
  have hle := Nat.find_min' hsome hret
  refine ⟨r, probeLoop_done.mpr ⟨Nat.find hsome, by omega, Ends.iff_iterate.mpr ⟨?_, e, he, hr⟩⟩⟩
  intro j hj
  have hin : (probe size hash j).1.toNat < entrys.length := hlen ▸ probe_lt hsize j
  refine ⟨_, List.getElem?_eq_getElem hin, ?_⟩
  apply Option.not_isSome_iff_eq_none.mp
  intro h
  exact Nat.find_min hsome hj ⟨_, List.getElem?_eq_getElem hin, h⟩

/-- For every size `2 ^ m` and every hash the indexes are those of `index = 5 * index + perturb + 1`
modulo the size, with `perturb` shifted by 5 at each turn, and they reach each slot within `13 + 2 ^ m`
turns. So a loop that returns at some slot ends within as many. -/
theorem probe_reaches (m : Nat) (hm : m < 64) (hash : ulong) :
    let size := BitVec.ofNat 64 (2 ^ m)
    (probe size hash 0).1.toNat = hash.toNat % 2 ^ m ∧ (probe size hash 0).2 = hash ∧
    (∀ i, (probe size hash (i + 1)).2 = (probe size hash i).2 >>> 5 ∧
      (probe size hash (i + 1)).1.toNat =
        (5#64 * (probe size hash i).1 + (probe size hash (i + 1)).2 + 1).toNat % 2 ^ m) ∧
    (∀ j < 2 ^ m, ∃ i < 13 + 2 ^ m, (probe size hash i).1.toNat = j) ∧
    ∀ (ρ : Type) (entrys : List (map_entry V)) (body : ulong → map_entry V → Option ρ),
      entrys.length = 2 ^ m → (∃ j e, entrys[j.toNat]? = some e ∧ (body j e).isSome) →
        ∃ r, probeLoop entrys size body (13 + 2 ^ m) hash hash = .done r := by
  intro size
  have hsize : size.toNat = 2 ^ m := by
    rw [BitVec.toNat_ofNat]
    exact Nat.mod_eq_of_lt (Nat.pow_lt_pow_right (by omega) hm)
  refine ⟨mask_toNat hsize hash, rfl, ?_, ?_, ?_⟩
  · intro i
    rw [probe_succ]
    exact ⟨rfl, probeStep_index hsize _⟩
  · intro j hj
    exact probe_covers hsize hash hj
  · intro ρ entrys body hlen ⟨j, e, he, hret⟩
    obtain ⟨hj, -⟩ := List.getElem?_eq_some_iff.mp he
    obtain ⟨n, hn, hslot⟩ := probe_covers hsize hash (hlen ▸ hj)
    apply probeLoop_ends hsize hlen hn
    rw [BitVec.eq_of_toNat_eq hslot]
    exact ⟨e, he, hret⟩

/-- The last slot of a table of 8, with the largest hash. -/
theorem probe_reaches_eight :
    ∃ i < 13 + 2 ^ 3, (probe (BitVec.ofNat 64 (2 ^ 3)) 0xffffffffffffffff#64 i).1.toNat = 7 := by
  obtain ⟨-, -, -, hreach, -⟩ := probe_reaches (V := Unit) 3 (by decide) 0xffffffffffffffff#64
  exact hreach 7 (by decide)

end Coverage

/-! ## Where the three functions end -/

section Calls

/-- `hashmap_put` ends at a slot of the key or a slot without a key. -/
def putStop (same : CString → Bool) : Slot CString (Option V) → Bool
  | .live k _ => same k
  | _ => true

/-- `hashmap_get` ends at a slot of the key or a slot never used. -/
def getStop (same : CString → Bool) : Slot CString (Option V) → Bool
  | .never => true
  | .deleted => false
  | .live k _ => same k

/-- `hashmap_delete` ends at a slot of the key or a deleted slot. -/
def deleteStop (same : CString → Bool) : Slot CString (Option V) → Bool
  | .never => false
  | .deleted => true
  | .live k _ => same k

def slotValue : Slot CString (Option V) → Option V
  | .live _ value => value
  | _ => none

/-- The map after `hashmap_put` ended at the slot `i` with the entry `e`. -/
def stored (map : hashmap V) (i : Nat) (e : map_entry V) (key : CString) (value : Option V) : hashmap V :=
  if e.slot.isLive then
    { map with entrys :=
        map.entrys.set i { e with value, isdel := if e.isdel = TRUE then FALSE else e.isdel } }
  else
    { map with
      entrys := map.entrys.set i { key := some key, value, isdel := FALSE }
      use := map.use + 1 }

/-- The map after `hashmap_delete` ended at the slot `i` with the entry `e`. -/
def unlinked (map : hashmap V) (i : Nat) (e : map_entry V) : hashmap V :=
  if e.slot.isLive then
    { map with entrys := map.entrys.set i { e with key := none, isdel := TRUE } }
  else map

variable {map map' : hashmap V} {key : CString} {value r : Option V} {n : Nat} {e : map_entry V}

theorem put_loop_returns {b : Int} :
    Returns (fun fuel => probeLoop map.entrys map.size (putBody map key value) fuel
      (string_hash key) (string_hash key)) (map', b) ↔
      ∃ n e, Finds map.entrys map.size (putStop (map.same key)) key n e ∧
        map' = stored map (path map.size key n) e key value ∧ b = 1 := by
  have hbody : ∀ i e, putBody map key value i e =
      if putStop (map.same key) e.slot then some (stored map i.toNat e key value, 1) else none := by
    intro i e
    unfold putBody stored map_entry.slot
    rw [hit_eq]
    unfold map_entry.slot
    rcases hkey : e.key with _ | k
    · by_cases hdel : e.isdel = TRUE <;> simp [hdel, Slot.holds, Slot.isLive, putStop]
    · by_cases hsame : map.same key k <;> simp [hsame, Slot.holds, Slot.isLive, putStop]
  rw [probeLoop_returns hbody]
  simp only [Prod.mk.injEq, path, eq_comm]

theorem get_returns : Returns (fun fuel => hashmap_get fuel (some map) (some key)) r ↔
    ∃ n e, Finds map.entrys map.size (getStop (map.same key)) key n e ∧ slotValue e.slot = r := by
  have hbody : ∀ i e, getBody map key i e =
      if getStop (map.same key) e.slot then some (slotValue e.slot) else none := by
    intro i e
    unfold getBody
    rw [hit_eq]
    unfold map_entry.slot
    rcases hkey : e.key with _ | k
    · by_cases hdel : e.isdel = TRUE <;> simp [hdel, Slot.holds, getStop, slotValue]
    · by_cases hsame : map.same key k <;> simp [hsame, Slot.holds, getStop, slotValue]
  exact probeLoop_returns hbody

theorem get_returns_stops : Returns (fun fuel => hashmap_get fuel (some map) (some key)) r ↔
    ∃ n s, Stops map.table (getStop (map.same key)) (path map.size key) n s ∧ slotValue s = r := by
  rw [get_returns]
  constructor
  · rintro ⟨n, e, hfinds, hr⟩
    exact ⟨n, e.slot, hfinds.stops, hr⟩
  · rintro ⟨n, s, hstops, hr⟩
    obtain ⟨e, hfinds, rfl⟩ := Stops.finds hstops
    exact ⟨n, e, hfinds, hr⟩

theorem delete_returns : Returns (fun fuel => hashmap_delete fuel (some map) (some key)) (some map', r) ↔
    ∃ n e, Finds map.entrys map.size (deleteStop (map.same key)) key n e ∧
      map' = unlinked map (path map.size key n) e ∧ r = slotValue e.slot := by
  have hbody : ∀ i e, deleteBody map key i e =
      if deleteStop (map.same key) e.slot then some (unlinked map i.toNat e, slotValue e.slot)
      else none := by
    intro i e
    unfold deleteBody unlinked
    rw [hit_eq]
    unfold map_entry.slot
    rcases hkey : e.key with _ | k
    · by_cases hdel : e.isdel = TRUE <;> simp [hdel, Slot.holds, Slot.isLive, deleteStop, slotValue]
    · by_cases hsame : map.same key k <;>
        simp [hsame, Slot.holds, Slot.isLive, deleteStop, slotValue]
  have hcall : Returns (fun fuel => hashmap_delete fuel (some map) (some key)) (some map', r) ↔
      Returns (fun fuel => probeLoop map.entrys map.size (deleteBody map key) fuel
        (string_hash key) (string_hash key)) (map', r) := by
    unfold Returns hashmap_delete
    simp [bind_eq_done]
  rw [hcall, probeLoop_returns hbody]
  simp only [Prod.mk.injEq, path, eq_comm]

/-! ## The tables they leave -/

theorem stored_table : (stored map i e key value).table =
    map.table.set i (match e.key with
      | some k => .live k value
      | none => .live key value) := by
  unfold stored hashmap.table map_entry.slot
  rcases hkey : e.key with _ | k
  · by_cases hdel : e.isdel = TRUE <;> simp [hdel, Slot.isLive, List.map_set]
  · simp [Slot.isLive, List.map_set]

theorem unlinked_table (hlive : e.slot.isLive) :
    (unlinked map i e).table = map.table.set i .deleted := by
  unfold unlinked hashmap.table
  rw [if_pos hlive]
  simp [List.map_set, map_entry.slot]

end Calls

end Akio.Hashmap
