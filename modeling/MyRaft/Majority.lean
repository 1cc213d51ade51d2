/-
The vector `temp_sort` of `primary_update_commit_index`: what its element at
`majority_ - 1` is, and which of its elements are accessed.

The vector has an element for each server and is filled from
`Follower_saved_index`, whose keys stay the servers in every run. The debug line
reads the first three elements, whatever the number of servers.
-/
import MyRaft.Commit
import Mathlib.Order.Bounds.Defs

namespace MyRaft

open Rank
open StdLib (StdMap)

/-! ## The majority index -/

namespace RaftServer

variable {x : RaftServer}

/-- A descending order of the saved indexes is the one `sort` computes, whatever the
order of the map and of equal indexes. -/
theorem sorted_eq (hkeys : x.followerSavedIndex.keys.Perm x.configuration) {sorted : List Int}
    (hperm : sorted.Perm x.followerSavedIndex.values)
    (hsorted : sorted.Pairwise (· ≥ ·)) : sorted = x.tempSort := by
  rw [tempSort_eq hkeys]
  exact List.Perm.eq_of_pairwise' hsorted (List.pairwise_insertionSort _ _)
    (hperm.trans (List.perm_insertionSort _ _).symm)

/-- The element at `majority_ - 1` is in the vector. -/
theorem getElem?_tempSort (hkeys : x.followerSavedIndex.keys.Perm x.configuration)
    (hmajority : x.majority = (x.configuration.length / 2 + 1 : Nat)) (hne : 1 ≤ x.configuration.length) :
    x.tempSort[(x.majority - 1).toNat]? = some x.majorityIndex := by
  have hlen : x.tempSort.length = x.configuration.length := by
    simp [tempSort_eq hkeys, List.length_insertionSort, StdMap.values_eq, hkeys.length_eq]
  have hlt : (x.majority - 1).toNat < x.tempSort.length := by omega
  rw [majorityIndex, List.getD_eq_getElem _ _ hlt, List.getElem?_eq_getElem hlt]

end RaftServer

/-- **The commit index a primary computes is the largest index that a majority has saved**, and two
majorities meet. -/
theorem majority_index (x : RaftServer) (server : Addr) (index : Int) (hne : 1 ≤ x.configuration.length)
    (hmajority : x.majority = (x.configuration.length / 2 + 1 : Nat))
    (hkeys : (x.saved server index).followerSavedIndex.keys.Perm x.configuration) :
    IsGreatest {k | (x.saved server index).MajorityHolds k} (x.saved server index).majorityIndex ∧
    (∀ sorted : List Int, sorted.Perm (x.saved server index).followerSavedIndex.values → sorted.Pairwise (· ≥ ·) →
      sorted[(x.majority - 1).toNat]? = some (x.saved server index).majorityIndex) ∧
    (∀ y, x.primaryUpdateCommitIndex server index = .ok y → y.commitIndex = (x.saved server index).majorityIndex) ∧
    ∀ Q Q' : Finset Addr, Quorum x.configuration Q → Quorum x.configuration Q' → ∃ v ∈ Q, v ∈ Q' := by
  have hiff : ∀ k, k ≤ (x.saved server index).majorityIndex ↔ (x.saved server index).MajorityHolds k := fun k =>
    RaftServer.le_majorityIndex_iff hkeys hmajority (List.length_pos_iff.mp hne)
  refine ⟨⟨(hiff _).mp (Int.le_refl _), fun k hk => (hiff k).mpr hk⟩, fun sorted hperm hsorted => ?_,
    fun y hy => ?_,
    fun Q Q' hQ hQ' => hQ.meet hQ'⟩
  · rw [RaftServer.sorted_eq hkeys hperm hsorted]
    exact RaftServer.getElem?_tempSort hkeys hmajority hne
  · obtain ⟨tasks, -, rfl⟩ := RaftServer.primaryUpdateCommitIndex_ok hy
    rfl

/-- A, primary of three with two entries, hears that B has the first. -/
def countingB : RaftServer :=
  { RaftServer.start serverA threeServers.configuration with
    term := 1
    state := .primary
    followerSavedIndex := (StdMap.empty.setAll threeServers.configuration (-1)).set serverA 1 }

theorem countingB_index : (countingB.saved serverB 0).tempSort = [1, 0, -1] ∧
    IsGreatest {k | (countingB.saved serverB 0).MajorityHolds k} 0 := by
  have h := majority_index countingB serverB 0 (by decide) (by decide) (by decide)
  exact ⟨by decide, by simpa [show (countingB.saved serverB 0).majorityIndex = 0 by decide] using h.1⟩

/-! ## The accesses to the vector -/

/-- The positions of `temp_sort` that `primary_update_commit_index` accesses: those the loop
over the map fills, the three of the debug line, and the one it commits. -/
def RaftServer.tempSortAccesses (x : RaftServer) : List Int :=
  (List.range x.followerSavedIndex.keys.length).map Int.ofNat ++ [0, 1, 2] ++ [x.majority - 1]

/-- The primary `x` calls `primary_update_commit_index` for a reply; `t` is what it then sorts. -/
def Counts (x : RaftServer) (p : Packet) (t : RaftServer) : Prop :=
  ∃ resp, p.rpc = .respAppend resp ∧ TakesReply x resp ∧ resp.ok = true ∧ t = x.counting resp.server resp

/-- The vector has `n` elements; every access is to one of them. -/
def InBounds (n : Nat) (x : RaftServer) : Prop := ∀ i ∈ x.tempSortAccesses, 0 ≤ i ∧ i < n

instance (n : Nat) (x : RaftServer) : Decidable (InBounds n x) := inferInstanceAs (Decidable (∀ i ∈ _, _))

namespace RaftServer

variable {x : RaftServer}

/-- The loop and the commit stay in the vector; the debug line needs three elements. -/
theorem inBounds_iff (hkeys : x.followerSavedIndex.keys.Perm x.configuration)
    (hmajority : x.majority = (x.configuration.length / 2 + 1 : Nat)) :
    InBounds x.configuration.length x ↔ 3 ≤ x.configuration.length := by
  unfold InBounds tempSortAccesses
  simp only [hkeys.length_eq, List.mem_append, List.mem_map, List.mem_range, List.mem_cons, List.not_mem_nil,
    or_false]
  constructor
  · intro h
    have := (h 2 (by simp)).2
    omega
  · intro h i hi
    rcases hi with (⟨n, hn, rfl⟩ | hi) | rfl
    · exact ⟨Int.natCast_nonneg n, Int.ofNat_lt.mpr hn⟩
    · omega
    · omega

end RaftServer

section Runs

variable {SM : Type} [StateMachine SM] {c : Cluster} {σ : System SM}

/-- **The keys of `Follower_saved_index` are the servers, and the vector is accessed within its bounds exactly
where there are three of them.** -/
theorem commit_in_bounds_iff (hr : Reachable c σ) (s : Addr) :
    (σ.raft s).followerSavedIndex.keys.Perm c.configuration ∧
    ∀ p ∈ σ.inflight, p.dst = s → ∀ t, Counts (σ.raft s) p t →
      t.followerSavedIndex.keys.Perm c.configuration ∧
      (InBounds c.configuration.length t ↔ 3 ≤ c.configuration.length) := by
  have hkeys := (hr.ranges s).keys
  have hknown := hr.wired.known s
  refine ⟨.of_eq hkeys, fun p hp hdst t ht => ?_⟩
  obtain ⟨resp, hrpc, -, -, rfl⟩ := ht
  obtain ⟨q, ae, x, hreply⟩ := hr.ae_reply (hr.wired.sent p hp) hrpc
  have hserver : resp.server ∈ c.configuration := by
    rw [hreply.server]
    exact hr.src_mem (hr.wired.sent p hp)
  have hsaved : ((σ.raft s).counting resp.server resp).followerSavedIndex.keys = c.configuration := by
    rw [RaftServer.counting, RaftServer.saved_followerSavedIndex, StdMap.keys_set_of_mem _ (by rwa [hkeys]), hkeys]
  have hconf : ((σ.raft s).counting resp.server resp).configuration = c.configuration := hknown.configuration
  refine ⟨.of_eq hsaved, ?_⟩
  rw [← hconf]
  exact RaftServer.inBounds_iff (.of_eq (by rw [hsaved, hconf])) (by rw [hconf]; exact hknown.majority)

end Runs

theorem copyX_in_bounds : ∃ (σ : System Unit) (p : Packet) (t : RaftServer), p ∈ σ.inflight ∧
    Counts (σ.raft serverA) p t ∧ InBounds 3 t := by
  obtain ⟨σ, hr, p, hp, hdst, resp, hresp, ht, hok⟩ := System.exists_reachable threeServers copyX
    (P := fun σ : System Unit => ∃ p ∈ σ.inflight, p.dst = serverA ∧ ∃ resp ∈ p.respAppend?,
      TakesReply (σ.raft serverA) resp ∧ resp.ok = true) (by decide +kernel)
  have hc : Counts (σ.raft serverA) p _ := ⟨resp, Packet.mem_respAppend?.mp hresp, ht, hok, rfl⟩
  exact ⟨σ, p, _, hp, hc, (((commit_in_bounds_iff hr serverA).2 p hp hdst _ hc).2).mpr (by decide)⟩

def twoServers : Cluster := ⟨[serverA, serverB], by decide⟩

/-- A of two servers is elected, and the answer of B to its first AE is in flight. -/
def answeredAe : List Action := campaign serverA ++ List.replicate 3 (.deliver 0)

instance (x : RaftServer) (p : Packet) : Decidable (∃ t, Counts x p t ∧ ¬ InBounds 2 t) := by
  refine decidable_of_iff (∃ resp ∈ p.respAppend?, TakesReply x resp ∧ resp.ok = true ∧
    ¬ InBounds 2 (x.counting resp.server resp)) ?_
  constructor
  · exact fun ⟨resp, hresp, ht, hok, hout⟩ => ⟨_, ⟨resp, Packet.mem_respAppend?.mp hresp, ht, hok, rfl⟩, hout⟩
  · exact fun ⟨_, ⟨resp, hrpc, ht, hok, rfl⟩, hout⟩ => ⟨resp, Packet.mem_respAppend?.mpr hrpc, ht, hok, hout⟩

theorem twoServers_out_of_bounds :
    ¬ ∀ (c : Cluster) (σ : System Unit) (s : Addr), Reachable c σ → s ∈ c.configuration →
    2 ≤ c.configuration.length →
      ∀ p ∈ σ.inflight, p.dst = s → ∀ t, Counts (σ.raft s) p t → InBounds c.configuration.length t := by
  intro hall
  obtain ⟨σ, hr, p, hp, hdst, t, ht, hout⟩ := System.exists_reachable twoServers answeredAe
    (P := fun σ : System Unit => ∃ p ∈ σ.inflight, p.dst = serverA ∧ ∃ t, Counts (σ.raft serverA) p t ∧
    ¬ InBounds 2 t)
    (by decide +kernel)
  exact hout (hall twoServers σ serverA hr (by decide) (by decide) p hp hdst t ht)

end MyRaft
