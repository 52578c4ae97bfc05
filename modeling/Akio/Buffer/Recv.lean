import Akio.Buffer.Send

/-!
# `buffer_chain_recv`

`readv` fills the last buffer of the chain, and then the first of the pool. That one joins the chain only
if it got bytes.
-/

namespace Akio.Buffer

open Block

variable {pool : buffer_pool} {chain : buffer_chain} {buffers buffers' : Store buffer} {n m : buffer}
  {f o ms : List Nat} {w t r : Nat} {xs ys bytes : List byte}

/-- What the last buffer has room for. -/
def room (pool : buffer_pool) (chain : buffer_chain) : Nat :=
  match chain.wbuf with
  | none => 0
  | some w => pool.buffers.field buffer_wsize 0 w

theorem room_of_cell (hw : chain.wbuf = some w) (hn : pool.buffers.cell w = some n) :
    room pool chain = buffer_wsize n := by
  unfold room
  rw [hw]
  exact Store.field_of_cell hn

theorem unread_extend (hn : n.pos ≤ n.last) {next : Ptr} :
    unread ⟨n.pos, n.last + xs.length, next, fill n.data n.last xs⟩ = unread n ++ xs :=
  slice_extend hn

theorem ChainOf.grow (hc : ChainOf buffers chain ms w) (hsame : Same buffers buffers' ms)
    (hw : buffers.cell w = some n)
    (hw' : buffers'.cell w = some ⟨n.pos, n.last + xs.length, n.next, fill n.data n.last xs⟩)
    (hfit : n.last + xs.length ≤ BUFFER_CAP) (hne : xs ≠ []) :
    ChainOf buffers' { chain with recv := r } ms w ∧
    content buffers' (ms ++ [w]) = content buffers (ms ++ [w]) ++ xs := by
  obtain ⟨n', hn', hfilling⟩ := hc.filling
  obtain rfl := Option.some.inj (hw.symm.trans hn')
  have hpos := hfilling.pos
  have hlen : 0 < xs.length := List.length_pos_iff.mpr hne
  refine ⟨⟨?_, hc.wbuf, ?_, _, hw', ?_, hfit, ?_⟩, ?_⟩
  · apply hc.linked.congr
    intro p hp
    rcases List.mem_append.mp hp with hm | hpw
    · exact Store.field_congr (hsame p hm)
    · rw [List.mem_singleton.mp hpw, next_of_cell hw, next_of_cell hw']
  · intro p hp
    rw [hsame p hp]
    exact hc.full p hp
  · show n.pos ≤ n.last + xs.length
    omega
  · intro heq
    have : n.pos = n.last + xs.length := heq
    omega
  · rw [content_append, content_append, content_same hsame, content_single hw, content_single hw',
      unread_extend hpos, List.append_assoc]

theorem ChainOf.link (hc : ChainOf buffers chain ms w) (hsame : Same buffers buffers' ms)
    (hw : buffers.cell w = some n)
    (hw' : buffers'.cell w = some ⟨n.pos, n.last + xs.length, some t, fill n.data n.last xs⟩)
    (hfull : n.last + xs.length = BUFFER_CAP)
    (ht : buffers'.cell t = some ⟨0, ys.length, none, fill m.data 0 ys⟩) (hys : ys.length ≤ BUFFER_CAP) :
    ChainOf buffers' { chain with recv := r, wbuf := some t } (ms ++ [w]) t ∧
    content buffers' (ms ++ [w] ++ [t]) = content buffers (ms ++ [w]) ++ (xs ++ ys) := by
  obtain ⟨n', hn', hfilling⟩ := hc.filling
  obtain rfl := Option.some.inj (hw.symm.trans hn')
  have hpos := hfilling.pos
  have hunread : n.pos < BUFFER_CAP := by
    rcases Nat.lt_or_eq_of_le hpos with hlt | heq
    · omega
    · have := hfilling.rewound heq
      unfold BUFFER_CAP BUFFER_SIZE BUFFER_HSIZE
      omega
  refine ⟨⟨?_, rfl, ?_, _, ht, Nat.zero_le _, hys, fun h => h.symm⟩, ?_⟩
  · rw [Chain.snoc_iff, Chain.snoc_iff, next_of_cell hw', next_of_cell ht]
    refine ⟨⟨?_, rfl⟩, rfl⟩
    exact (Chain.snoc_iff.mp hc.linked).1.congr fun p hp => Store.field_congr (hsame p hp)
  · intro p hp
    rcases List.mem_append.mp hp with hm | hpw
    · rw [hsame p hm]
      exact hc.full p hm
    · rw [List.mem_singleton.mp hpw]
      exact ⟨_, hw', by show n.pos < n.last + xs.length; omega, hfull⟩
  · have hys' : unread ⟨0, ys.length, none, fill m.data 0 ys⟩ = ys := by
      have h : slice (fill m.data 0 ys) 0 (0 + ys.length) = ys := slice_fill
      rwa [Nat.zero_add] at h
    rw [content_append, content_append, content_append, content_same hsame, content_single hw,
      content_single hw', content_single ht, unread_extend hpos, hys']
    simp only [List.append_assoc]

/-! ## One turn of the loop -/

theorem fillBuffer_live (ht : pool.buffers.Live t) : fillBuffer pool (some t) xs =
    .done { pool with buffers := pool.buffers.adjust t fun n => { n with data := fill n.data n.last xs } } := by
  unfold fillBuffer
  rw [Store.modify_live ht]
  rfl

theorem PoolOf.apart (hp : PoolOf pool (t :: f) (ms ++ [w] ++ o)) :
    t ≠ w ∧ w ∉ ms ++ o ∧ t ∉ ms ++ o := by
  have hfree : t ∉ ms ++ [w] ++ o := hp.out_of_free List.mem_cons_self
  have hnd := (List.nodup_append.mp hp.nodup).2.1
  rw [List.append_assoc, List.singleton_append, List.nodup_middle] at hnd
  simp only [List.mem_append, List.mem_singleton, not_or] at hfree
  refine ⟨hfree.1.2, (List.nodup_cons.mp hnd).1, ?_⟩
  rw [List.mem_append, not_or]
  exact ⟨hfree.1.1, hfree.2⟩

theorem readv_spec (wlen : Nat) (bytes : List byte) (hp : PoolOf pool (t :: f) (ms ++ [w] ++ o))
    (hw : pool.buffers.cell w = some n)
    (ht : pool.buffers.cell t = some m) :
    ∃ pool', readv pool (some w) (some t) wlen bytes = .done pool' ∧ PoolOf pool' (t :: f) (ms ++ [w] ++ o) ∧
      Same pool.buffers pool'.buffers (ms ++ o) ∧
      pool'.buffers.cell w = some { n with data := fill n.data n.last (bytes.take wlen) } ∧
      pool'.buffers.cell t = some { m with data := fill m.data m.last (bytes.drop wlen) } := by
  have hwo : w ∈ ms ++ [w] ++ o := by simp
  obtain ⟨htw, hwout, htout⟩ := hp.apart
  have hp₁ := hp.adjust_out hwo fun n => { n with data := fill n.data n.last (bytes.take wlen) }
  have hp₂ := hp₁.adjust t (fun n => { n with data := fill n.data n.last (bytes.drop wlen) })
    fun _ n => ⟨rfl, id, id⟩
  have ht₁ : (pool.buffers.adjust w fun n => { n with data := fill n.data n.last (bytes.take wlen) }).cell t =
      some m := (Store.adjust_cell_of_ne htw).trans ht
  refine ⟨_, ?_, hp₂, (same_adjust hwout).trans (same_adjust htout), ?_, ?_⟩
  · unfold readv
    rw [fillBuffer_live (Store.live_of_cell hw), Outcome.done_bind]
    exact fillBuffer_live (Store.live_of_cell ht₁)
  · refine (Store.adjust_cell_of_ne htw.symm).trans ?_
    rw [Store.adjust_cell_self, hw]
    rfl
  · refine Store.adjust_cell_self.trans ?_
    rw [ht₁]
    rfl

theorem join_spec (wlen tsize : Nat) (hp : PoolOf pool (t :: f) (ms ++ [w] ++ o))
    (hw : pool.buffers.cell w = some n) (ht : pool.buffers.cell t = some m) :
    ∃ pool', join pool (some w) (some t) wlen tsize = .done pool' ∧ PoolOf pool' f (ms ++ [w] ++ [t] ++ o) ∧
      Same pool.buffers pool'.buffers (ms ++ o) ∧
      pool'.buffers.cell w = some { n with last := n.last + wlen, next := some t } ∧
      pool'.buffers.cell t = some { m with last := m.pos + tsize, next := none } := by
  have hwo : w ∈ ms ++ [w] ++ o := by simp
  obtain ⟨htw, hwout, htout⟩ := hp.apart
  have hp₁ := hp.adjust_out hwo fun n => { n with last := n.last + wlen }
  have hw₁ : (pool.buffers.adjust w fun n => { n with last := n.last + wlen }).cell w =
      some { n with last := n.last + wlen } := by
    rw [Store.adjust_cell_self, hw]
    rfl
  have ht₁ : (pool.buffers.adjust w fun n => { n with last := n.last + wlen }).cell t = some m :=
    (Store.adjust_cell_of_ne htw).trans ht
  obtain ⟨pool₂, hdetach, hp₂, hsame₂, ht₂⟩ := buffer_detach_spec hp₁
  have hw₂ := (hsame₂ w hwo).trans hw₁
  rw [ht₁] at ht₂
  -- `last` of `temp`, and the link of the old last buffer.
  have hp₃ := hp₂.adjust_out List.mem_cons_self fun n => { n with last := n.pos + tsize }
  have hp₄ := hp₃.adjust_out (List.mem_cons_of_mem t hwo) fun n => { n with next := some t }
  have hperm : (t :: (ms ++ [w] ++ o)).Perm (ms ++ [w] ++ [t] ++ o) := by
    rw [List.append_assoc (ms ++ [w])]
    exact List.perm_middle.symm
  have hsub : ∀ p ∈ ms ++ o, p ∈ ms ++ [w] ++ o := by
    intro p hpm
    simp only [List.mem_append] at hpm ⊢
    exact hpm.imp_left Or.inl
  refine ⟨_, ?_, hp₄.perm hperm, ?_, ?_, ?_⟩
  · unfold join
    rw [Store.modify_live (Store.live_of_cell hw), Outcome.done_bind, hdetach, Outcome.done_bind,
      Store.modify_live (Store.live_of_cell ht₂), Outcome.done_bind,
      Store.modify_live (Store.adjust_live.mpr (Store.live_of_cell hw₂))]
    rfl
  · exact (same_adjust hwout).trans
      ((hsame₂.mono hsub).trans ((same_adjust htout).trans (same_adjust hwout)))
  · refine Store.adjust_cell_self.trans ?_
    rw [Store.adjust_cell_of_ne htw.symm, hw₂]
    rfl
  · refine (Store.adjust_cell_of_ne htw).trans ?_
    rw [Store.adjust_cell_self, ht₂]
    rfl

theorem fits_spec (hp : PoolOf pool (t :: f) (ms ++ [w] ++ o)) (hc : ChainOf pool.buffers chain ms w)
    (hn : pool.buffers.cell w = some n) (hm : pool.buffers.cell t = some m) (hne : bytes ≠ [])
    (hle : bytes.length ≤ buffer_wsize n) :
    ∃ pool₂ buffers', readv pool (some w) (some t) (buffer_wsize n) bytes = .done pool₂ ∧
      (pool₂.buffers.modify (some w) fun n => { n with last := n.last + bytes.length }) = .done buffers' ∧
      Holds { pool₂ with buffers := buffers' } { chain with recv := r } o
        (content pool.buffers (ms ++ [w]) ++ bytes) ∧ Same pool.buffers buffers' o := by
  obtain ⟨-, hwout, -⟩ := hp.apart
  obtain ⟨pool₂, hread, hp₂, hsame, hw₂, -⟩ :=
    readv_spec (buffer_wsize n) bytes hp hn hm
  rw [List.take_of_length_le hle] at hw₂
  have hsame' : Same pool.buffers (pool₂.buffers.adjust w fun n => { n with last := n.last + bytes.length })
      (ms ++ o) := hsame.trans (same_adjust hwout)
  have hw' : (pool₂.buffers.adjust w fun n => { n with last := n.last + bytes.length }).cell w =
      some ⟨n.pos, n.last + bytes.length, n.next, fill n.data n.last bytes⟩ := by
    rw [Store.adjust_cell_self, hw₂]
    rfl
  have hfit : n.last + bytes.length ≤ BUFFER_CAP := by
    obtain ⟨n', hn', hfilling⟩ := hc.filling
    obtain rfl := Option.some.inj (hn.symm.trans hn')
    have := hfilling.last
    unfold buffer_wsize at hle
    omega
  obtain ⟨hc', hcontent⟩ := hc.grow (r := r) (hsame'.mono fun p => List.mem_append_left o) hn hw' hfit hne
  exact ⟨pool₂, _, hread, Store.modify_live (Store.live_of_cell hw₂),
    ⟨_, ms, w, hp₂.adjust_out (by simp) _, hc', hcontent⟩, hsame'.mono fun p => List.mem_append_right ms⟩

/-- A read that also fills a part of the pool's buffer. -/
theorem spills_spec (hp : PoolOf pool (t :: f) (ms ++ [w] ++ o)) (hc : ChainOf pool.buffers chain ms w)
    (hn : pool.buffers.cell w = some n) (hm : pool.buffers.cell t = some m) (hpos : m.pos = 0)
    (hlast : m.last = 0) (hgt : ¬ bytes.length ≤ buffer_wsize n)
    (hfit : bytes.length ≤ buffer_wsize n + buffer_wsize m) :
    ∃ pool₂ pool₃, readv pool (some w) (some t) (buffer_wsize n) bytes = .done pool₂ ∧
      join pool₂ (some w) (some t) (buffer_wsize n) (bytes.length - buffer_wsize n) = .done pool₃ ∧
      Holds pool₃ { chain with recv := r, wbuf := some t } o (content pool.buffers (ms ++ [w]) ++ bytes) ∧
      Same pool.buffers pool₃.buffers o ∧
      room pool₃ { chain with recv := r, wbuf := some t } = buffer_wsize n + BUFFER_CAP - bytes.length := by
  obtain ⟨pool₂, hread, hp₂, hsame₂, hw₂, ht₂⟩ :=
    readv_spec (buffer_wsize n) bytes hp hn hm
  obtain ⟨pool₃, hjoin, hp₃, hsame₃, hw₃, ht₃⟩ :=
    join_spec (buffer_wsize n) (bytes.length - buffer_wsize n) hp₂ hw₂ ht₂
  have hsame := hsame₂.trans hsame₃
  have hxs : (bytes.take (buffer_wsize n)).length = buffer_wsize n := List.length_take_of_le (by omega)
  have hys : (bytes.drop (buffer_wsize n)).length = bytes.length - buffer_wsize n := List.length_drop
  have hfull : n.last + (bytes.take (buffer_wsize n)).length = BUFFER_CAP := by
    obtain ⟨n', hn', hfilling⟩ := hc.filling
    obtain rfl := Option.some.inj (hn.symm.trans hn')
    have := hfilling.last
    rw [hxs]
    unfold buffer_wsize
    omega
  rw [hlast, hpos, Nat.zero_add, ← hys] at ht₃
  have hw₃' : pool₃.buffers.cell w = some ⟨n.pos, n.last + (bytes.take (buffer_wsize n)).length, some t,
      fill n.data n.last (bytes.take (buffer_wsize n))⟩ := by
    rw [hxs]
    exact hw₃
  have hcap : (bytes.drop (buffer_wsize n)).length ≤ BUFFER_CAP := by
    have : buffer_wsize m ≤ BUFFER_CAP := Nat.sub_le _ _
    omega
  obtain ⟨hc', hcontent⟩ := hc.link (r := r) (hsame.mono fun p => List.mem_append_left o) hn
    hw₃' hfull ht₃ hcap
  rw [List.take_append_drop] at hcontent
  refine ⟨pool₂, pool₃, hread, hjoin, ⟨_, ms ++ [w], t, hp₃, hc', hcontent⟩,
    hsame.mono fun p => List.mem_append_right ms, ?_⟩
  rw [room_of_cell rfl ht₃, hys]
  show BUFFER_CAP - (bytes.length - buffer_wsize n) = buffer_wsize n + BUFFER_CAP - bytes.length
  omega

/-! ## One turn -/

/-- What a turn of the loop of `buffer_chain_recv` leaves. The loop goes on where `ret` is `none`. -/
structure arrival where
  ret : Option Int
  pool : buffer_pool
  chain : buffer_chain
  delivered : List byte

/-- The body of the loop of `buffer_chain_recv`. -/
def recvTurn (malloc : Bool) (pool : buffer_pool) (chain : buffer_chain) (delivered : List byte) (input : Input) :
    Outcome arrival := do
  let w ← pool.buffers.read chain.wbuf
  let wlen := buffer_wsize w
  let (pool, temp) := buffer_pool_peek malloc pool
  let t ← pool.buffers.read temp
  let tlen := buffer_wsize t
  match input with
  | .eof => return ⟨some 0, pool, chain, delivered⟩
  | .eagain => return ⟨some 1, pool, chain, delivered⟩
  | .error => return ⟨some (-1), pool, chain, delivered⟩
  | .eintr => return ⟨none, pool, chain, delivered⟩
  | .bytes first more =>
    let bytes := (first :: more).take (wlen + tlen)
    let rv := bytes.length
    if rv = 0 then return ⟨some 0, pool, chain, delivered⟩
    let pool ← readv pool chain.wbuf temp wlen bytes
    let chain := { chain with recv := chain.recv + rv }
    if rv ≤ wlen then
      let buffers ← pool.buffers.modify chain.wbuf fun n => { n with last := n.last + rv }
      return ⟨some 1, { pool with buffers }, chain, delivered ++ bytes⟩
    else
      let pool ← join pool chain.wbuf temp wlen (rv - wlen)
      return ⟨if rv ≠ wlen + tlen then some 1 else none, pool, { chain with wbuf := temp }, delivered ++ bytes⟩

theorem recvLoop_cons {malloc : Bool} {input : Input} {inputs : List Input} {delivered : List byte} :
    recvLoop malloc pool chain delivered (input :: inputs) =
      recvTurn malloc pool chain delivered input >>= fun t =>
        match t.ret with
        | some ret => .done (t.pool, t.chain, ret, t.delivered)
        | none => recvLoop malloc t.pool t.chain t.delivered inputs := by
  unfold recvTurn
  rw [recvLoop]
  cases pool.buffers.read chain.wbuf with
  | fault => rfl
  | running => rfl
  | done w =>
    simp only [Outcome.done_bind]
    cases (buffer_pool_peek malloc pool).1.buffers.read (buffer_pool_peek malloc pool).2 with
    | fault => rfl
    | running => rfl
    | done t =>
      cases input with
      | bytes first more =>
        simp only [Outcome.done_bind]
        split_ifs with hzero hle hshort
        · rfl
        · cases readv _ chain.wbuf _ _ _ with
          | fault => rfl
          | running => rfl
          | done pool₂ =>
            simp only [Outcome.done_bind]
            cases pool₂.buffers.modify chain.wbuf _ with
            | fault => rfl
            | running => rfl
            | done buffers => rfl
        · cases readv _ chain.wbuf _ _ _ with
          | fault => rfl
          | running => rfl
          | done pool₂ =>
            simp only [Outcome.done_bind]
            cases join pool₂ chain.wbuf _ _ _ with
            | fault => rfl
            | running => rfl
            | done pool₃ => rfl
        · cases readv _ chain.wbuf _ _ _ with
          | fault => rfl
          | running => rfl
          | done pool₂ =>
            simp only [Outcome.done_bind]
            cases join pool₂ chain.wbuf _ _ _ with
            | fault => rfl
            | running => rfl
            | done pool₃ => rfl
      | _ => rfl

/-- How a turn ends, with `room` bytes of room in the last buffer before it. The loop goes on after an
interrupted call, and after one that filled both vectors. -/
def RecvRet (room' : Nat) (delivered : List byte) (t : arrival) : Input → Prop
  | .eof => t.ret = some 0 ∧ t.delivered = delivered
  | .eagain => t.ret = some 1
  | .error => t.ret = some (-1)
  | .eintr => t.ret = none ∧ t.delivered = delivered ∧ room t.pool t.chain = room'
  | .bytes _ more =>
    if room' + BUFFER_CAP ≤ more.length + 1 then
      t.ret = none ∧ t.delivered ≠ [] ∧ room t.pool t.chain = 0
    else t.ret = some 1

theorem recvRet_full {t : arrival} {room' : Nat} {delivered : List byte} {first : byte} {more : List byte}
    (hfull : room' + BUFFER_CAP ≤ more.length + 1) : RecvRet room' delivered t (.bytes first more) ↔
      t.ret = none ∧ t.delivered ≠ [] ∧ room t.pool t.chain = 0 := by
  unfold RecvRet
  exact iff_of_eq (if_pos hfull)

theorem recvRet_short {t : arrival} {room' : Nat} {delivered : List byte} {first : byte} {more : List byte}
    (hshort : ¬ room' + BUFFER_CAP ≤ more.length + 1) :
    RecvRet room' delivered t (.bytes first more) ↔ t.ret = some 1 := by
  unfold RecvRet
  exact iff_of_eq (if_neg hshort)

/-- What a turn leaves of a chain that holds `bytes`. -/
structure RecvTurned (pool : buffer_pool) (chain : buffer_chain) (o : List Nat) (bytes delivered : List byte)
    (input : Input) (t : arrival) : Prop where
  data : ∃ new, t.delivered = delivered ++ new ∧ Holds t.pool t.chain o (bytes ++ new) ∧
    t.chain.recv = chain.recv + new.length
  same : Same pool.buffers t.pool.buffers o
  ret : RecvRet (room pool chain) delivered t input

theorem RecvTurned.kept {input : Input} {ret : Option Int} {pool' : buffer_pool} {delivered : List byte}
    (hh : Holds pool' chain o bytes) (hsame : Same pool.buffers pool'.buffers o)
    (hret : RecvRet (room pool chain) delivered ⟨ret, pool', chain, delivered⟩ input) :
    RecvTurned pool chain o bytes delivered input ⟨ret, pool', chain, delivered⟩ :=
  ⟨⟨[], by simp, by simpa using hh, rfl⟩, hsame, hret⟩

theorem recvTurn_spec (hh : Holds pool chain o bytes) (delivered : List byte) (input : Input) :
    ∃ t, recvTurn true pool chain delivered input = .done t ∧ RecvTurned pool chain o bytes delivered input t := by
  obtain ⟨f, ms, w, hp, hc, hcontent⟩ := hh
  obtain ⟨n, hn, hfilling⟩ := hc.filling
  obtain ⟨pool₁, t, f₁, hpeek, hp₁, hsame₁⟩ := buffer_pool_peek_spec hp
  obtain ⟨m, hm, hmpos, hmlast⟩ := hp₁.rewound t List.mem_cons_self
  have hsub : ∀ p ∈ ms ++ [w], p ∈ ms ++ [w] ++ o := fun p hpm => List.mem_append_left o hpm
  have hc₁ := hc.same (hsame₁.mono hsub)
  have hcontent₁ := (content_same (hsame₁.mono hsub)).trans hcontent
  have hn₁ := (hsame₁ w (by simp)).trans hn
  have hsame' : Same pool.buffers pool₁.buffers o := hsame₁.mono fun p hpo => List.mem_append_right _ hpo
  have hh₁ : Holds pool₁ chain o bytes := ⟨_, ms, w, hp₁, hc₁, hcontent₁⟩
  have hroom : room pool chain = buffer_wsize n := room_of_cell hc.wbuf hn
  have hcap : buffer_wsize m = BUFFER_CAP := by rw [buffer_wsize, hmlast, Nat.sub_zero]
  unfold recvTurn
  rw [hc.wbuf, Store.read_of_cell hn, Outcome.done_bind, hpeek]
  dsimp only
  rw [Store.read_of_cell hm, Outcome.done_bind]
  cases input with
  | eof => exact ⟨_, rfl, .kept hh₁ hsame' ⟨rfl, rfl⟩⟩
  | eagain => exact ⟨_, rfl, .kept hh₁ hsame' rfl⟩
  | error => exact ⟨_, rfl, .kept hh₁ hsame' rfl⟩
  | eintr => exact ⟨_, rfl, .kept hh₁ hsame' ⟨rfl, rfl, (room_of_cell hc.wbuf hn₁).trans hroom.symm⟩⟩
  | bytes first more =>
    dsimp only
    have hcappos : 0 < BUFFER_CAP := by decide
    generalize hbytes : (first :: more).take (buffer_wsize n + buffer_wsize m) = new
    have hlen : new.length = min (buffer_wsize n + BUFFER_CAP) (more.length + 1) := by
      rw [← hbytes, List.length_take, List.length_cons, hcap]
    have hne : new ≠ [] := List.ne_nil_of_length_pos (by omega)
    have hzero : ¬ new.length = 0 := by omega
    rw [if_neg hzero]
    by_cases hle : new.length ≤ buffer_wsize n
    · obtain ⟨pool₂, buffers', hread, hmodify, hholds, hsame₂⟩ :=
        fits_spec (r := chain.recv + new.length) hp₁ hc₁ hn₁ hm hne hle
      rw [hcontent₁, hc.wbuf] at hholds
      rw [hread, Outcome.done_bind, if_pos hle, hmodify]
      refine ⟨_, rfl, ⟨new, rfl, hholds, rfl⟩, hsame'.trans hsame₂, ?_⟩
      exact (recvRet_short (by omega)).mpr rfl
    · obtain ⟨pool₂, pool₃, hread, hjoin, hholds, hsame₃, hroom₃⟩ :=
        spills_spec (r := chain.recv + new.length) hp₁ hc₁ hn₁ hm hmpos hmlast hle (by omega)
      rw [hcontent₁] at hholds
      rw [hread, Outcome.done_bind, if_neg hle, hjoin, Outcome.done_bind]
      refine ⟨_, rfl, ⟨new, rfl, hholds, rfl⟩, hsame'.trans hsame₃, ?_⟩
      by_cases hfull : room pool chain + BUFFER_CAP ≤ more.length + 1
      · rw [if_neg (by omega)]
        exact (recvRet_full hfull).mpr ⟨rfl, by simp [hne], by rw [hroom₃]; omega⟩
      · rw [if_pos (by omega)]
        exact (recvRet_short hfull).mpr rfl

/-! ## The loop -/

/-- The loop ends well, or `inputs` does not say how it goes on. `before` is what the chain held before
the call. -/
def RecvEnds (buffers : Store buffer) (o : List Nat) (before : List byte) :
    Outcome (buffer_pool × buffer_chain × Int × List byte) → Prop
  | .done (pool', chain', ret, delivered) => Holds pool' chain' o (before ++ delivered) ∧
      chain'.recv = delivered.length ∧ Same buffers pool'.buffers o ∧ (ret = 1 ∨ ret = 0 ∨ ret = -1)
  | .fault => False
  | .running => True

theorem RecvTurned.ret_cases {input : Input} {delivered : List byte} {t : arrival}
    (ht : RecvTurned pool chain o bytes delivered input t) {ret : Int} (hret : t.ret = some ret) :
    ret = 1 ∨ ret = 0 ∨ ret = -1 := by
  have hends := ht.ret
  cases input with
  | bytes first more =>
    by_cases hfull : room pool chain + BUFFER_CAP ≤ more.length + 1
    · rw [((recvRet_full hfull).mp hends).1] at hret
      cases hret
    · rw [(recvRet_short hfull).mp hends] at hret
      exact Or.inl (Option.some.inj hret).symm
  | _ =>
    unfold RecvRet at hends
    simp_all

theorem recvLoop_spec (inputs : List Input) {before delivered : List byte}
    (hh : Holds pool chain o (before ++ delivered)) (hrecv : chain.recv = delivered.length)
    (hsame : Same buffers pool.buffers o) :
    RecvEnds buffers o before (recvLoop true pool chain delivered inputs) := by
  induction inputs generalizing pool chain delivered with
  | nil => trivial
  | cons input inputs ih =>
    obtain ⟨t, hturn, ht⟩ := recvTurn_spec hh delivered input
    obtain ⟨new, hnew, hholds, hcount⟩ := ht.data
    rw [List.append_assoc, ← hnew] at hholds
    have hcount' : t.chain.recv = t.delivered.length := by rw [hcount, hrecv, hnew, List.length_append]
    rw [recvLoop_cons, hturn, Outcome.done_bind]
    cases hret : t.ret with
    | some ret => exact ⟨hholds, hcount', hsame.trans ht.same, ht.ret_cases hret⟩
    | none => exact ih hholds hcount' (hsame.trans ht.same)

/-! ## The end of the file -/

/-- `readv` finds the end of the file after a call that filled both vectors, in one call of
`buffer_chain_recv`. The last buffer has `room` bytes of room, and `filled` is that there was such a call. -/
def endsAfterFull (room : Nat) (filled : Bool) : List Input → Bool
  | .eof :: _ => filled
  | .eintr :: inputs => endsAfterFull room filled inputs
  | .bytes _ more :: inputs => decide (room + BUFFER_CAP ≤ more.length + 1) && endsAfterFull 0 true inputs
  | _ => false

theorem recvLoop_ended (inputs : List Input) {delivered delivered' : List byte} {pool' : buffer_pool}
    {chain' : buffer_chain} {ret : Int} (hh : Holds pool chain o bytes)
    (hdone : recvLoop true pool chain delivered inputs = .done (pool', chain', ret, delivered')) :
    ret = 0 ∧ delivered' ≠ [] ↔ endsAfterFull (room pool chain) (decide (delivered ≠ [])) inputs = true := by
  induction inputs generalizing pool chain delivered bytes with
  | nil => cases hdone
  | cons input inputs ih =>
    obtain ⟨t, hturn, ht⟩ := recvTurn_spec hh delivered input
    obtain ⟨new, hnew, hholds, -⟩ := ht.data
    have hends := ht.ret
    have hret {r : Int} (h : t.ret = some r) : ret = r ∧ delivered' = t.delivered := by
      rw [recvLoop_cons, hturn, Outcome.done_bind, h] at hdone
      simp only [Outcome.done.injEq, Prod.mk.injEq] at hdone
      exact ⟨hdone.2.2.1.symm, hdone.2.2.2.symm⟩
    have hgo (h : t.ret = none) :
        recvLoop true t.pool t.chain t.delivered inputs = .done (pool', chain', ret, delivered') := by
      rw [recvLoop_cons, hturn, Outcome.done_bind, h] at hdone
      exact hdone
    unfold endsAfterFull
    cases input with
    | eof =>
      obtain ⟨hzero, hsame⟩ := hends
      obtain ⟨rfl, rfl⟩ := hret hzero
      simp [hsame]
    | eagain =>
      obtain ⟨rfl, -⟩ := hret hends
      simp
    | error =>
      obtain ⟨rfl, -⟩ := hret hends
      simp
    | eintr =>
      obtain ⟨hnone, hsame, hroom⟩ := hends
      rw [ih hholds (hgo hnone), hsame, hroom]
    | bytes first more =>
      by_cases hfull : room pool chain + BUFFER_CAP ≤ more.length + 1
      · obtain ⟨hnone, hne, hroom⟩ := (recvRet_full hfull).mp hends
        rw [ih hholds (hgo hnone), hroom]
        simp [hfull, hne]
      · obtain ⟨rfl, -⟩ := hret ((recvRet_short hfull).mp hends)
        simp [hfull]

/-! ## The call -/

theorem buffer_chain_recv_ends (hh : Holds pool chain o bytes) (inputs : List Input) :
    (buffer_chain_recv true pool chain inputs).Ends fun r => RecvEnds pool.buffers o bytes (.done r) ∧
      (r.2.2.1 = 0 ∧ r.2.2.2 ≠ [] ↔ endsAfterFull (room pool chain) false inputs = true) := by
  have hends : RecvEnds pool.buffers o bytes (buffer_chain_recv true pool chain inputs) := by
    apply recvLoop_spec inputs _ rfl Same.refl
    rw [List.append_nil]
    exact hh.counts
  cases hcall : buffer_chain_recv true pool chain inputs with
  | done r =>
    rw [hcall] at hends
    exact ⟨hends, recvLoop_ended inputs hh.counts hcall⟩
  | fault =>
    rw [hcall] at hends
    exact hends
  | running => trivial

end Akio.Buffer
