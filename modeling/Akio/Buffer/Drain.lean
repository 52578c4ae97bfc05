import Akio.Buffer.Runs

/-!
# What `buffer_chain_send` leaves in the chain

Bytes are left where the kernel takes no more. Where it takes all it is offered, the chain keeps its last
buffer only.
-/

namespace Akio.Buffer

variable {pool pool' : buffer_pool} {chain chain' : buffer_chain} {f o ms : List Nat} {w : Nat}
  {bytes accepted taken : List byte}

/-- The calls of `writev` in the loop, in order. -/
def writevs (pool : buffer_pool) (chain : buffer_chain) (accepted : List byte) : List Output → List Writev
  | [] => []
  | output :: outputs =>
    match sendTurn pool chain accepted output with
    | .done t => t.call :: if t.ret = none then writevs t.pool t.chain t.accepted outputs else []
    | _ => []

def sendWritevs (pool : buffer_pool) (chain : buffer_chain) (outputs : List Output) : List Writev :=
  writevs pool { chain with sent := 0 } [] outputs

/-- The chain has the rewound buffer `w` only, and those of `ms` are in the free list or freed. -/
structure Drained (ms : List Nat) (w : Nat) (o : List Nat) (pool' : buffer_pool) (chain' : buffer_chain) : Prop where
  rbuf : chain'.rbuf = some w
  wbuf : chain'.wbuf = some w
  rewound : ∃ n, pool'.buffers.cell w = some n ∧ n.pos = 0 ∧ n.last = 0
  put : ∃ f', PoolOf pool' f' (w :: o) ∧ ∀ p ∈ ms, p ∈ f' ∨ ¬ pool'.buffers.Live p

theorem Holds.drained (hh : Holds pool' chain' o []) (hnd : (ms ++ [w] ++ o).Nodup) (hwbuf : chain'.wbuf = some w) :
    Drained ms w o pool' chain' := by
  obtain ⟨f', ms', w', hp, hc, hempty⟩ := hh
  obtain rfl : w' = w := Option.some.inj (hc.wbuf.symm.trans hwbuf)
  obtain ⟨b, n, hb, hn⟩ := hc.first
  have hpos := (hc.first_empty_iff hb hn).mpr hempty
  cases ms' with
  | cons p ms' =>
    -- A buffer before the last one has bytes.
    obtain rfl : p = b := Option.some.inj (hc.linked.1.symm.trans hb)
    obtain ⟨n', hn', hfull⟩ := hc.full p List.mem_cons_self
    obtain rfl := Option.some.inj (hn.symm.trans hn')
    exact absurd hpos (Nat.ne_of_lt hfull.1)
  | nil =>
    have hrbuf : chain'.rbuf = some w' := hc.linked.1
    obtain rfl : w' = b := Option.some.inj (hrbuf.symm.trans hb)
    obtain ⟨n', hn', hfilling⟩ := hc.filling
    obtain rfl := Option.some.inj (hn.symm.trans hn')
    have hlast := hfilling.rewound hpos
    refine ⟨hb, hwbuf, ⟨n, hn, hpos.trans hlast, hlast⟩, f', hp, ?_⟩
    intro p hpm
    by_cases hlive : pool'.buffers.Live p
    · left
      rcases List.mem_append.mp ((hp.live p).mp hlive) with hpf | hpo
      · exact hpf
      · rw [List.append_assoc] at hnd
        exact absurd rfl ((List.nodup_append.mp hnd).2.2 p hpm p hpo)
    · exact Or.inr hlive

/-! ## The loop -/

theorem writevs_cons {output : Output} {outputs : List Output} {t : turn}
    (hturn : sendTurn pool chain accepted output = .done t) :
    writevs pool chain accepted (output :: outputs) =
      t.call :: if t.ret = none then writevs t.pool t.chain t.accepted outputs else [] := by
  rw [writevs, hturn]

theorem sendLoop_short (outputs : List Output) (hh : Holds pool chain o bytes)
    (hdone : sendLoop pool chain accepted outputs = .done (pool', chain', 1, taken))
    (hrest : pending pool' chain' ≠ []) :
    ∃ call, (writevs pool chain accepted outputs).getLast? = some call ∧ call.Short := by
  induction outputs generalizing pool chain accepted bytes with
  | nil => cases hdone
  | cons output outputs ih =>
    obtain ⟨t, rest, hturn, ht⟩ := sendTurn_spec hh accepted output
    rw [sendLoop_cons, hturn, Outcome.done_bind] at hdone
    rw [writevs_cons hturn]
    cases hret : t.ret with
    | some ret =>
      rw [hret] at hdone
      simp only [Outcome.done.injEq, Prod.mk.injEq] at hdone
      obtain ⟨rfl, rfl, rfl, rfl⟩ := hdone
      rw [pending_eq ht.holds] at hrest
      exact ⟨t.call, rfl, ht.short hret hrest⟩
    | none =>
      rw [hret] at hdone
      obtain ⟨call, hlast, hshort⟩ := ih ht.holds hdone
      refine ⟨call, ?_, hshort⟩
      rw [if_pos rfl, List.getLast?_cons, hlast]
      rfl

theorem sendLoop_whole (outputs : List Output) (hh : Holds pool chain o bytes) (hne : bytes ≠ [])
    (hsent : chain.sent = accepted.length)
    (hwhole : ∀ call ∈ writevs pool chain accepted outputs, call.Whole) :
    sendLoop pool chain accepted outputs = .running ∧ outputs.length < bytes.length ∨
    ∃ pool' chain', sendLoop pool chain accepted outputs = .done (pool', chain', 1, accepted ++ bytes) ∧
      Holds pool' chain' o [] ∧ chain'.sent = (accepted ++ bytes).length ∧ chain'.wbuf = chain.wbuf := by
  induction outputs generalizing pool chain accepted bytes with
  | nil => exact Or.inl ⟨rfl, List.length_pos_of_ne_nil hne⟩
  | cons output outputs ih =>
    obtain ⟨t, rest, hturn, ht⟩ := sendTurn_spec hh accepted output
    rw [writevs_cons hturn, List.forall_mem_cons] at hwhole
    obtain ⟨hless, hret⟩ := ht.whole hne hwhole.1
    rw [sendLoop_cons, hturn, Outcome.done_bind, ← ht.stream]
    by_cases hrest : rest = []
    · rw [if_pos hrest] at hret
      subst hrest
      rw [hret, List.append_nil]
      exact Or.inr ⟨t.pool, t.chain, rfl, ht.holds, ht.sent hsent, ht.wbuf⟩
    · rw [if_neg hrest] at hret
      rw [if_pos hret] at hwhole
      rw [hret, List.length_cons]
      rcases ih ht.holds hrest (ht.sent hsent) hwhole.2 with ⟨hrunning, hlen⟩ | hdone
      · exact Or.inl ⟨hrunning, by omega⟩
      · obtain ⟨pool', chain', hloop, hholds, hsent', hwbuf⟩ := hdone
        exact Or.inr ⟨pool', chain', hloop, hholds, hsent', hwbuf.trans ht.wbuf⟩

/-! ## The call -/

/-- `buffer_chain_send` returns 1 with bytes left in the chain only where its last `writev` had no room for
more. Where every `writev` takes all it is offered, one call sends all that is in the chain, unless `outputs`
has too few answers to say how it goes on. -/
theorem send_drains (hp : PoolOf pool f (ms ++ [w] ++ o)) (hc : ChainOf pool.buffers chain ms w)
    (hne : pending pool chain ≠ []) (outputs : List Output) :
    (∀ pool' chain' accepted, buffer_chain_send pool chain outputs = .done (pool', chain', 1, accepted) →
      pending pool' chain' ≠ [] → ∃ call, (sendWritevs pool chain outputs).getLast? = some call ∧ call.Short) ∧
    ((∀ call ∈ sendWritevs pool chain outputs, call.Whole) →
      buffer_chain_send pool chain outputs = .running ∧ outputs.length < (pending pool chain).length ∨
      ∃ pool' chain', buffer_chain_send pool chain outputs = .done (pool', chain', 1, pending pool chain) ∧
        chain'.sent = (pending pool chain).length ∧ Drained ms w o pool' chain') := by
  have hh : Holds pool chain o (content pool.buffers (ms ++ [w])) := ⟨f, ms, w, hp, hc, rfl⟩
  have hh₀ : Holds pool { chain with sent := 0 } o (content pool.buffers (ms ++ [w])) := hh.counts
  rw [pending_eq hh] at hne ⊢
  refine ⟨fun pool' chain' accepted hdone hrest => sendLoop_short outputs hh₀ hdone hrest, ?_⟩
  intro hwhole
  rcases sendLoop_whole outputs hh₀ hne rfl hwhole with hrunning | hdone
  · exact Or.inl hrunning
  · obtain ⟨pool', chain', hloop, hholds, hsent, hwbuf⟩ := hdone
    have hdrained := hholds.drained (List.nodup_append.mp hp.nodup).2.1 (hwbuf.trans hc.wbuf)
    exact Or.inr ⟨pool', chain', hloop, hsent, hdrained⟩

/-- A chain of ten buffers that hold one byte each. -/
def sampleBuffer (p : Nat) : buffer :=
  if p < 9 then { pos := BUFFER_CAP - 1, last := BUFFER_CAP, next := some (p + 1), data := fun _ => 7 }
  else { pos := 0, last := 1, next := none, data := fun _ => 7 }

def samplePool : buffer_pool :=
  { newPool with
    allocs := 10
    buffers := ⟨fun p => if p < 10 then some (sampleBuffer p) else none, 10, fun p hp => if_neg (by omega)⟩ }

def sampleChain : buffer_chain := { rbuf := some 0, wbuf := some 9, sent := 0, recv := 0 }

theorem samplePool_of : PoolOf samplePool [] (List.range 9 ++ [9] ++ []) where
  queue := ⟨rfl, rfl⟩
  nodup := by decide
  size := rfl
  allocs := rfl
  live p := by
    unfold samplePool Store.Live
    simp only [List.nil_append, List.append_nil, ← List.range_succ, List.mem_range]
    split_ifs with hp <;> simp [hp]
  rewound := by simp
  cached := by decide
  room := by decide

theorem sampleChain_of : ChainOf samplePool.buffers sampleChain (List.range 9) 9 where
  linked := ⟨rfl, rfl, rfl, rfl, rfl, rfl, rfl, rfl, rfl, rfl, rfl⟩
  wbuf := rfl
  full p hp := by
    have hlt : p < 9 := List.mem_range.mp hp
    refine ⟨sampleBuffer p, if_pos (by omega), ?_⟩
    unfold sampleBuffer
    rw [if_pos hlt]
    exact ⟨show BUFFER_CAP - 1 < BUFFER_CAP by decide, rfl⟩
  filling := ⟨sampleBuffer 9, rfl, by decide, by decide, by decide⟩

theorem send_drains_sample :
    (∀ pool' chain' accepted,
      buffer_chain_send samplePool sampleChain (List.replicate 10 (.takes 7)) = .done (pool', chain', 1, accepted) →
      pending pool' chain' ≠ [] →
        ∃ call, (sendWritevs samplePool sampleChain (List.replicate 10 (.takes 7))).getLast? = some call ∧
          call.Short) ∧
    ∃ pool' chain', buffer_chain_send samplePool sampleChain (List.replicate 10 (.takes 7)) =
        .done (pool', chain', 1, pending samplePool sampleChain) ∧
      chain'.sent = (pending samplePool sampleChain).length ∧ Drained (List.range 9) 9 [] pool' chain' := by
  have hdrains := send_drains samplePool_of sampleChain_of (by decide) (List.replicate 10 (.takes 7))
  refine ⟨hdrains.1, (hdrains.2 ?_).resolve_left fun h => absurd h.2 (by decide)⟩
  rw [show sendWritevs samplePool sampleChain (List.replicate 10 (.takes 7)) = [⟨8, .bytes 8⟩, ⟨2, .bytes 2⟩] from rfl]
  simp [Writev.Whole]

end Akio.Buffer
