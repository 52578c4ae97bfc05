import Akio.Buffer.Recv
import Akio.Lib.Run

/-!
# Chains that share a pool

A connection has a chain, and keeps what `readv` has delivered to it and what `writev` has accepted from
it. The calls on the connections come in any order.
-/

namespace Akio.Buffer

structure conn where
  chain : buffer_chain
  delivered : List byte
  accepted : List byte

structure world where
  pool : buffer_pool
  conns : List conn

/-- A new connection, where `malloc` always gives a buffer. -/
def start (w : world) : Outcome (world × Int) := do
  let (pool, buf) ← buffer_pool_get true w.pool
  let chain := { rbuf := buf, wbuf := buf, sent := 0, recv := 0 }
  return ({ pool, conns := w.conns ++ [{ chain, delivered := [], accepted := [] }] }, 1)

def recvOn (w : world) (i : Nat) (inputs : List Input) : Outcome (world × Int) := do
  let c ← Outcome.ofOption w.conns[i]?
  let (pool, chain, ret, bytes) ← buffer_chain_recv true w.pool c.chain inputs
  let c := { c with chain, delivered := c.delivered ++ bytes }
  return ({ pool, conns := w.conns.set i c }, ret)

def sendOn (w : world) (i : Nat) (outputs : List Output) : Outcome (world × Int) := do
  let c ← Outcome.ofOption w.conns[i]?
  let (pool, chain, ret, bytes) ← buffer_chain_send w.pool c.chain outputs
  let c := { c with chain, accepted := c.accepted ++ bytes }
  return ({ pool, conns := w.conns.set i c }, ret)

inductive Call where
  | start
  | recv (i : Nat) (inputs : List Input)
  | send (i : Nat) (outputs : List Output)

def exec (w : world) : Call → Outcome (world × Int)
  | .start => start w
  | .recv i inputs => recvOn w i inputs
  | .send i outputs => sendOn w i outputs

def Step (w : world) (call : Call) (w' : world) : Prop := ∃ ret, exec w call = .done (w', ret)

/-- The unread bytes from `rbuf` on. There are no more buffers than were ever allocated. -/
def pending (pool : buffer_pool) (chain : buffer_chain) : List byte :=
  content pool.buffers (walk (nextOf pool.buffers) pool.buffers.next chain.rbuf)

/-- A call of `buffer_chain_recv` on the connection `i` has added `bytes` at the end of its chain. -/
def Received (w w' : world) (i : Nat) (c : conn) : Prop :=
  ∃ c' bytes, w'.conns = w.conns.set i c' ∧ c'.delivered = c.delivered ++ bytes ∧ c'.accepted = c.accepted ∧
    pending w'.pool c'.chain = pending w.pool c.chain ++ bytes ∧ c'.chain.recv = bytes.length

/-- A call of `buffer_chain_send` has taken `bytes` from the front. -/
def Sent (w w' : world) (i : Nat) (c : conn) : Prop :=
  ∃ c' bytes, w'.conns = w.conns.set i c' ∧ c'.accepted = c.accepted ++ bytes ∧ c'.delivered = c.delivered ∧
    pending w.pool c.chain = bytes ++ pending w'.pool c'.chain ∧ c'.chain.sent = bytes.length

variable {pool pool' : buffer_pool} {chain : buffer_chain} {c c' : conn} {w w' : world} {f h o : List Nat}
  {i : Nat} {cs : List (conn × List Nat)} {buffers buffers' : Store buffer} {rest : List byte}

theorem pending_eq (hh : Holds pool chain o rest) : pending pool chain = rest := by
  obtain ⟨f, ms, w, hp, hc, hcontent⟩ := hh
  have hle := hp.length_le
  rw [List.length_append] at hle
  unfold pending
  rw [hc.linked.walk_of_le (by omega)]
  exact hcontent

/-! ## All the connections -/

/-- The buffers `x.2` are those of the connection `x.1`, and no byte is lost in them. -/
def Carries (buffers : Store buffer) (x : conn × List Nat) : Prop :=
  ∃ ms w, x.2 = ms ++ [w] ∧ ChainOf buffers x.1.chain ms w ∧ x.1.accepted ++ content buffers x.2 = x.1.delivered

/-- The connections with the buffers of each. The buffers `h` are out as well. -/
structure Inv (w : world) (h f : List Nat) (cs : List (conn × List Nat)) : Prop where
  conns : w.conns = cs.map Prod.fst
  pool : PoolOf w.pool f ((cs.map Prod.snd).flatten ++ h)
  carries : ∀ x ∈ cs, Carries w.pool.buffers x

/-- The buffers of all connections but the connection `i`. -/
def others (cs : List (conn × List Nat)) (i : Nat) : List Nat := ((cs.eraseIdx i).map Prod.snd).flatten

theorem perm_others (hi : i < cs.length) : (cs.map Prod.snd).flatten.Perm (cs[i].2 ++ others cs i) :=
  (((List.getElem_cons_eraseIdx_perm hi).map Prod.snd).flatten).symm

theorem Carries.same {x : conn × List Nat} (hx : Carries buffers x) (h : Same buffers buffers' x.2) :
    Carries buffers' x := by
  obtain ⟨ms, w, hbs, hc, hsum⟩ := hx
  refine ⟨ms, w, hbs, hc.same (hbs ▸ h), ?_⟩
  rw [content_same h]
  exact hsum

theorem mem_others {x : conn × List Nat} {p : Nat} (hx : x ∈ cs.eraseIdx i) (hp : p ∈ x.2) : p ∈ others cs i :=
  List.mem_flatten.mpr ⟨x.2, List.mem_map_of_mem hx, hp⟩

theorem Inv.holds (hi : Inv w h f cs) (hc : w.conns[i]? = some c) :
    ∃ rest, Holds w.pool c.chain (others cs i ++ h) rest ∧ c.accepted ++ rest = c.delivered := by
  rw [hi.conns, List.getElem?_map, Option.map_eq_some_iff] at hc
  obtain ⟨x, hx, rfl⟩ := hc
  obtain ⟨hlt, rfl⟩ := List.getElem?_eq_some_iff.mp hx
  obtain ⟨ms, wb, hbs, hchain, hsum⟩ := hi.carries _ (List.getElem_mem hlt)
  have hpool := hi.pool.perm ((perm_others hlt).append_right h)
  rw [hbs, List.append_assoc] at hpool
  rw [hbs] at hsum
  exact ⟨_, ⟨f, ms, wb, hpool, hchain, rfl⟩, hsum⟩

theorem Inv.set (hi : Inv w h f cs) (hc : w.conns[i]? = some c)
    (hh : Holds pool' c'.chain (others cs i ++ h) rest) (hsum : c'.accepted ++ rest = c'.delivered)
    (hsame : Same w.pool.buffers pool'.buffers (others cs i ++ h)) :
    ∃ f' cs', Inv ⟨pool', w.conns.set i c'⟩ h f' cs' := by
  obtain ⟨f', ms, wb, hpool, hchain, hcontent⟩ := hh
  have hlt : i < cs.length := by
    have := (List.getElem?_eq_some_iff.mp hc).1
    rwa [hi.conns, List.length_map] at this
  have hlt' : i < (cs.set i (c', ms ++ [wb])).length := by rwa [List.length_set]
  have hothers : others (cs.set i (c', ms ++ [wb])) i = others cs i := by
    unfold others
    rw [List.eraseIdx_set_eq]
  have hperm := perm_others hlt'
  rw [List.getElem_set_self, hothers] at hperm
  rw [← List.append_assoc] at hpool
  refine ⟨f', cs.set i (c', ms ++ [wb]), ?_, hpool.perm (hperm.symm.append_right h), ?_⟩
  · rw [List.map_set, ← hi.conns]
  · intro x hx
    have hx' := (List.getElem_cons_eraseIdx_perm hlt').mem_iff.mpr hx
    rw [List.getElem_set_self, List.eraseIdx_set_eq] at hx'
    rcases List.mem_cons.mp hx' with rfl | hrest
    · exact ⟨ms, wb, rfl, hchain, by rw [hcontent]; exact hsum⟩
    · apply (hi.carries x (List.mem_of_mem_eraseIdx hrest)).same
      exact fun p hp => hsame p (List.mem_append_left h (mem_others hrest hp))

/-! ## The calls -/

theorem start_spec (hi : Inv w h f cs) : ∃ w', start w = .done (w', 1) ∧ ∃ f' cs', Inv w' h f' cs' := by
  obtain ⟨pool', b, f', hget, hp, hsame, n, hn, hpos, hlast, hnext⟩ := buffer_pool_get_spec hi.pool
  have hperm : (b :: ((cs.map Prod.snd).flatten ++ h)).Perm ((cs.map Prod.snd).flatten ++ [b] ++ h) := by
    rw [List.append_assoc]
    exact List.perm_middle.symm
  refine ⟨⟨pool', w.conns ++ [⟨⟨some b, some b, 0, 0⟩, [], []⟩]⟩, ?_, f',
    cs ++ [(⟨⟨some b, some b, 0, 0⟩, [], []⟩, [b])], ?_, ?_, ?_⟩
  · unfold start
    rw [hget]
    rfl
  · rw [List.map_append, ← hi.conns]
    rfl
  · rw [List.map_append, List.flatten_append]
    exact hp.perm hperm
  · intro x hx
    rcases List.mem_append.mp hx with hold | hnew
    · apply (hi.carries x hold).same
      exact fun p hpx => hsame p (List.mem_append_left h <| List.mem_flatten.mpr ⟨x.2, List.mem_map_of_mem hold, hpx⟩)
    · rw [List.mem_singleton.mp hnew]
      refine ⟨[], b, rfl, ⟨⟨rfl, (next_of_cell hn).trans hnext⟩, rfl, by simp, n, hn, ?_⟩, ?_⟩
      · exact ⟨by omega, by rw [hlast]; exact Nat.zero_le _, fun _ => hlast⟩
      · show [] ++ content pool'.buffers [b] = []
        rw [content_single hn, unread, hpos, hlast]
        exact Block.slice_self

theorem recvOn_spec (hi : Inv w h f cs) (hc : w.conns[i]? = some c) (inputs : List Input) :
    recvOn w i inputs ≠ .fault ∧ ∀ w' ret, recvOn w i inputs = .done (w', ret) →
      (∃ f' cs', Inv w' h f' cs') ∧ Received w w' i c ∧ (ret = 1 ∨ ret = 0 ∨ ret = -1) := by
  obtain ⟨rest, hh, hsum⟩ := hi.holds hc
  have hends : (recvOn w i inputs).Ends fun r =>
      (∃ f' cs', Inv r.1 h f' cs') ∧ Received w r.1 i c ∧ (r.2 = 1 ∨ r.2 = 0 ∨ r.2 = -1) := by
    unfold recvOn
    rw [hc, Outcome.ofOption_some, Outcome.done_bind]
    apply (buffer_chain_recv_ends hh inputs).bind
    rintro ⟨pool', chain', ret, bytes⟩ ⟨⟨hh', hrecv, hsame, hret⟩, -⟩
    refine ⟨hi.set hc hh' ?_ hsame, ⟨_, bytes, rfl, rfl, rfl, ?_, hrecv⟩, hret⟩
    · rw [← hsum, List.append_assoc]
    · rw [pending_eq hh]
      exact pending_eq hh'
  exact ⟨(Outcome.ends_iff.mp hends).1, fun w' ret hdone => (Outcome.ends_iff.mp hends).2 _ hdone⟩

theorem sendOn_spec (hi : Inv w h f cs) (hc : w.conns[i]? = some c) (outputs : List Output) :
    sendOn w i outputs ≠ .fault ∧ ∀ w' ret, sendOn w i outputs = .done (w', ret) →
      (∃ f' cs', Inv w' h f' cs') ∧ Sent w w' i c ∧ (ret = 1 ∨ ret = 0 ∨ ret = -1) := by
  obtain ⟨rest, hh, hsum⟩ := hi.holds hc
  have hends : (sendOn w i outputs).Ends fun r =>
      (∃ f' cs', Inv r.1 h f' cs') ∧ Sent w r.1 i c ∧ (r.2 = 1 ∨ r.2 = 0 ∨ r.2 = -1) := by
    unfold sendOn
    rw [hc, Outcome.ofOption_some, Outcome.done_bind]
    apply (buffer_chain_send_ends hh outputs).bind
    rintro ⟨pool', chain', ret, bytes⟩ ⟨⟨rest', hh', hstream⟩, hsent, hsame, hret⟩
    refine ⟨hi.set hc hh' ?_ hsame, ⟨_, bytes, rfl, rfl, rfl, ?_, hsent⟩, hret⟩
    · rw [← hsum, ← hstream, List.append_assoc]
    · rw [pending_eq hh, ← hstream]
      exact congrArg (bytes ++ ·) (pending_eq hh').symm
  exact ⟨(Outcome.ends_iff.mp hends).1, fun w' ret hdone => (Outcome.ends_iff.mp hends).2 _ hdone⟩

theorem Step.inv {call : Call} (hi : Inv w h f cs) (hstep : Step w call w') : ∃ f' cs', Inv w' h f' cs' := by
  obtain ⟨ret, hexec⟩ := hstep
  cases call with
  | start =>
    obtain ⟨w₁, hstart, hinv⟩ := start_spec hi
    obtain ⟨rfl, -⟩ := Prod.mk.inj (Outcome.done.inj (hstart.symm.trans hexec))
    exact hinv
  | recv i inputs =>
    obtain ⟨c, hc, -⟩ := Outcome.bind_eq_done.mp hexec
    exact ((recvOn_spec hi (Outcome.ofOption_eq_done.mp hc) inputs).2 w' ret hexec).1
  | send i outputs =>
    obtain ⟨c, hc, -⟩ := Outcome.bind_eq_done.mp hexec
    exact ((sendOn_spec hi (Outcome.ofOption_eq_done.mp hc) outputs).2 w' ret hexec).1

theorem new_inv {maxsize : Int} (hnew : buffer_pool_create true maxsize = some pool) :
    Inv ⟨pool, []⟩ [] [] [] := by
  obtain rfl := Option.some.inj hnew
  refine ⟨rfl, ⟨⟨rfl, rfl⟩, List.nodup_nil, rfl, rfl, by simp, by simp, ?_, ?_⟩, by simp⟩
  · show (0 : Int) ≤ if maxsize < 32 then 32 else maxsize
    split_ifs <;> omega
  · show (0 : Int) < if maxsize < 32 then 32 else maxsize
    split_ifs <;> omega

/-! ## Whole runs -/

/-- In every run of calls on any number of chains that share a pool, what `writev` accepted from a chain and
what is pending in it are what `readv` delivered to it. A further call keeps `recv` and `sent`. -/
theorem bytes_kept_of_run {maxsize : Int} {calls : List Call}
    (hnew : buffer_pool_create true maxsize = some pool) (hrun : Run Step ⟨pool, []⟩ calls w) :
    (∀ c ∈ w.conns, c.accepted ++ pending w.pool c.chain = c.delivered) ∧
    ∀ i c, w.conns[i]? = some c →
      (∀ inputs, recvOn w i inputs ≠ .fault ∧ ∀ w' ret, recvOn w i inputs = .done (w', ret) →
        Received w w' i c ∧ (ret = 1 ∨ ret = 0 ∨ ret = -1)) ∧
      (∀ outputs, sendOn w i outputs ≠ .fault ∧ ∀ w' ret, sendOn w i outputs = .done (w', ret) →
        Sent w w' i c ∧ (ret = 1 ∨ ret = 0 ∨ ret = -1)) := by
  have hinv : ∃ f cs, Inv w [] f cs := by
    apply hrun.invariant (P := fun w => ∃ f cs, Inv w [] f cs) _ ⟨_, _, new_inv hnew⟩
    rintro w call w' ⟨f, cs, hi⟩ hstep
    exact hstep.inv hi
  obtain ⟨f, cs, hi⟩ := hinv
  refine ⟨?_, ?_⟩
  · intro c hmem
    obtain ⟨i, hlt, rfl⟩ := List.mem_iff_getElem.mp hmem
    obtain ⟨rest, hh, hsum⟩ := hi.holds (List.getElem?_eq_getElem hlt)
    rw [pending_eq hh]
    exact hsum
  · intro i c hc
    refine ⟨fun inputs => ⟨(recvOn_spec hi hc inputs).1, ?_⟩, fun outputs => ⟨(sendOn_spec hi hc outputs).1, ?_⟩⟩
    · exact fun w' ret hdone => ((recvOn_spec hi hc inputs).2 w' ret hdone).2
    · exact fun w' ret hdone => ((sendOn_spec hi hc outputs).2 w' ret hdone).2

/-- A step found by computing it. -/
def step? (w : world) (call : Call) : Option world :=
  match exec w call with
  | .done (w', _) => some w'
  | _ => none

theorem step_of_step? {call : Call} (h : step? w call = some w') : Step w call w' := by
  unfold step? at h
  split at h
  · next ret hexec => exact ⟨ret, Option.some.inj h ▸ hexec⟩
  · cases h

/-- A pool and calls for a run on fixed input. -/
def newPool : buffer_pool := ⟨32, 0, 0, none, none, .empty⟩

def sampleCalls : List Call :=
  [.start, .start, .recv 0 [.bytes 1 [2, 3]], .send 0 [.takes 1], .recv 1 [.eintr, .bytes 4 [5], .eof]]

def sampleWorld : world := ((sampleCalls.foldlM step? ⟨newPool, []⟩).get (by decide))

theorem bytes_kept_of_run_sample :
    (∀ c ∈ sampleWorld.conns, c.accepted ++ pending sampleWorld.pool c.chain = c.delivered) ∧
    ∀ i c, sampleWorld.conns[i]? = some c →
      (∀ inputs, recvOn sampleWorld i inputs ≠ .fault ∧ ∀ w' ret,
        recvOn sampleWorld i inputs = .done (w', ret) →
          Received sampleWorld w' i c ∧ (ret = 1 ∨ ret = 0 ∨ ret = -1)) ∧
      (∀ outputs, sendOn sampleWorld i outputs ≠ .fault ∧ ∀ w' ret,
        sendOn sampleWorld i outputs = .done (w', ret) →
          Sent sampleWorld w' i c ∧ (ret = 1 ∨ ret = 0 ∨ ret = -1)) :=
  bytes_kept_of_run (show buffer_pool_create true 10 = some newPool from rfl)
    (Run.of_foldlM (fun _ _ _ => step_of_step?) (Option.some_get _).symm)

end Akio.Buffer
