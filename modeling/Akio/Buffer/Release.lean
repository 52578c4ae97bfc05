import Akio.Buffer.Account
import Akio.Lib.Sweep

/-!
# `buffer_pool_delete`

It frees the buffers of the free list. Those of the chains stay, and nothing counts them any more.
-/

namespace Akio.Buffer

variable {pool : buffer_pool} {s : site}

/-- What is left in memory of the buffers. -/
def buffer_pool_delete (fuel : Nat) (pool : buffer_pool) : Outcome (Store buffer) :=
  pool.buffers.sweep (fun n => .done n.next) fuel pool.head_next

theorem inv_of_uses {maxsize : Int} {uses : List Use} (hnew : buffer_pool_create true maxsize = some pool)
    (hrun : Run Uses ⟨⟨pool, []⟩, []⟩ uses s) : ∃ f cs, Inv s.world s.held f cs :=
  hrun.invariant (P := fun s => ∃ f cs, Inv s.world s.held f cs) (fun _ _ _ ⟨_, _, hi⟩ huses => huses.inv hi)
    ⟨_, _, new_inv hnew⟩

/-- After any uses of the pool it frees the buffers of the free list, each once. What is left is what is out, with its
bytes. -/
theorem buffer_pool_delete_of_run {maxsize : Int} {uses : List Use}
    (hnew : buffer_pool_create true maxsize = some pool) (hrun : Run Uses ⟨⟨pool, []⟩, []⟩ uses s) :
    ∃ buffers, Outcome.Returns (fun fuel => buffer_pool_delete fuel s.world.pool) buffers ∧
      buffers.Blocks (s.world.pool.allocs - s.world.pool.size).toNat ∧
      (∀ p, buffers.Live p ↔ p ∈ outstanding s) ∧
      ∀ p ∈ outstanding s, buffers.cell p = s.world.pool.buffers.cell p := by
  obtain ⟨f, cs, hi⟩ := inv_of_uses hnew hrun
  have hp := hi.pool
  rw [← hi.outstanding] at hp
  obtain ⟨hf, hout, hapart⟩ := List.nodup_append.mp hp.nodup
  obtain ⟨buffers, hsweep, hcell⟩ := Store.sweep_spec (fun _ _ _ _ => rfl) hp.queue.chain hf
    (fun p hin => (hp.live p).mpr (List.mem_append_left _ hin)) (Nat.le_refl f.length)
  have hlive (p : Nat) : buffers.Live p ↔ p ∈ outstanding s := by
    rw [Store.live_swept hcell, hp.live, List.mem_append]
    constructor
    · rintro ⟨hin | hin, hnot⟩
      · exact absurd hin hnot
      · exact hin
    · exact fun hin => ⟨Or.inr hin, fun hfree => hapart p hfree p hin rfl⟩
  refine ⟨buffers, ⟨f.length, hsweep⟩, ⟨outstanding s, hout, ?_, hlive⟩, hlive, fun p hin => ?_⟩
  · have hallocs := hp.allocs
    have hsize := hp.size
    omega
  · rw [hcell, if_neg fun hfree => hapart p hfree p hin rfl]

/-- The chain that was read into still has its bytes. -/
theorem buffer_pool_delete_sample :
    ∃ s, Run Uses ⟨⟨newPool, []⟩, []⟩ (sampleUses.take 5) s ∧ s.world.pool.size = 2 ∧ (outstanding s).length = 1 ∧
      ∃ buffers, Outcome.Returns (fun fuel => buffer_pool_delete fuel s.world.pool) buffers ∧
        buffers.Blocks (s.world.pool.allocs - s.world.pool.size).toNat ∧
        (∀ p, buffers.Live p ↔ p ∈ outstanding s) ∧
        ∀ p ∈ outstanding s, buffers.cell p = s.world.pool.buffers.cell p := by
  have hfacts : (((sampleUses.take 5).foldlM uses? ⟨⟨newPool, []⟩, []⟩).map fun s =>
      decide (s.world.pool.size = 2 ∧ (outstanding s).length = 1)) = some true := by decide +kernel
  obtain ⟨s, hs, hfacts⟩ := Option.map_eq_some_iff.mp hfacts
  obtain ⟨hsize, hout⟩ := of_decide_eq_true hfacts
  have hrun := Run.of_foldlM (fun _ _ _ => uses_of_uses?) hs
  exact ⟨s, hrun, hsize, hout,
    buffer_pool_delete_of_run (show buffer_pool_create true 10 = some newPool from rfl) hrun⟩

end Akio.Buffer
