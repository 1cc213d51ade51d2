/-
The indexes a server keeps: how far its log, its commit index and its tables
reach, and the index a primary commits. That index is the highest one that a
majority of the servers are known to hold.
-/
import MyRaft.Replies
import MyRaft.Lib.Rank

namespace MyRaft

open History Rank
open StdLib (StdMap)
open RaftServer (Outcome Leads Accepts AcceptedLog)

/-! ## What a majority holds -/

namespace RaftServer

variable {x y : RaftServer} {input : Input}

/-- At least `majority_` servers hold the entry at `j`, by `Follower_saved_index`. -/
def MajorityHolds (j : Int) (s : RaftServer) : Prop :=
  s.majority ≤ s.configuration.countP fun z => j ≤ s.followerSavedIndex.get z

instance (j : Int) (s : RaftServer) : Decidable (s.MajorityHolds j) :=
  inferInstanceAs (Decidable (s.majority ≤ _))

/-- The vector to sort is the values of the map, which has a key for each server. -/
theorem tempSort_eq (hkeys : x.followerSavedIndex.keys.Perm x.configuration) :
    x.tempSort = x.followerSavedIndex.values.insertionSort (· ≥ ·) := by
  have hlen : x.followerSavedIndex.values.length = x.configuration.length := by
    rw [StdMap.values_eq, List.length_map, hkeys.length_eq]
  unfold tempSort
  rw [hlen, Nat.sub_self, List.replicate_zero, List.append_nil]

/-- **The index a primary commits is the highest a majority holds.** -/
theorem le_majorityIndex_iff {k : Int} (hkeys : x.followerSavedIndex.keys.Perm x.configuration)
    (hmajority : x.majority = (x.configuration.length / 2 + 1 : Nat)) (hne : x.configuration ≠ []) :
    k ≤ x.majorityIndex ↔ x.MajorityHolds k := by
  have hpos := List.length_pos_iff.mpr hne
  have hm : (x.majority - 1).toNat = x.configuration.length / 2 := by omega
  have hlt : x.configuration.length / 2 < x.followerSavedIndex.values.length := by
    rw [StdMap.values_eq, List.length_map, hkeys.length_eq]
    omega
  unfold majorityIndex MajorityHolds
  rw [tempSort_eq hkeys, hm, le_insertionSort_iff hlt, StdMap.values_eq, List.countP_map, hkeys.countP_eq,
    hmajority]
  simp only [Function.comp_def]
  omega

/-- `Follower_saved_index` is written in four ways. -/
inductive Saves (x : RaftServer) (input : Input) (y : RaftServer) : Prop
  | same (hsaved : y.followerSavedIndex = x.followerSavedIndex)
  | appended (hsaved : y.followerSavedIndex = x.followerSavedIndex.set x.server x.entries.log.length)
  | won {v : Int} (hsaved : y.followerSavedIndex =
    (x.followerSavedIndex.setAll x.configuration (-1)).set x.server v)
  | acked {p resp v} (hi : input = .message p) (hp : p.rpc = .respAppend resp)
      (hsaved : y.followerSavedIndex = x.followerSavedIndex.set resp.server v)

theorem Outcome.saves (h : Outcome x input y) : Saves x input y := by
  cases h with
  | acked hp hterm hstate hlsn hok ht hw hxs =>
    obtain ⟨_, _, _, _, -, rfl⟩ := ht.eq hxs
    exact .acked rfl hp rfl
  | won hp hterm hstate hlsn hok hm hy =>
    obtain ⟨_, _, _, rfl⟩ := hy.eq
    exact .won rfl
  | nacked hp hterm hstate hlsn hok hnext hw hy | aeRetried hmin hy =>
    obtain ⟨_, _, _, rfl⟩ := hy.eq
    exact .same rfl
  | campaigned hh hy | rvRetried hmin hy =>
    obtain ⟨_, _, _, rfl⟩ := CalledAll.eq hy
    exact .same rfl
  | appended client body es hlog => exact .appended rfl
  | aeAccepted hp hle hnp hlsn hpre ht => exact .same (by simp [ht])
  | _ => exact .same (by simp)

end RaftServer

/-! ## Ranges -/

/-- What the indexes of a server of a cluster are. -/
structure Ranges (c : Cluster) (x : RaftServer) : Prop where
  indexed : ∀ (i : Nat) entry, x.entries.log[i]? = some entry → entry.index = i
  commit_lo : -1 ≤ x.commitIndex
  commit_hi : x.commitIndex < x.entries.log.length
  applied : -1 ≤ x.smc.appliedIndex
  smc : x.smc.commitIndex = x.commitIndex
  keys : x.followerSavedIndex.keys = c.configuration
  next : x.state = .primary → ∀ z ∈ c.configuration,
    0 ≤ x.nextIndex.get z ∧ x.nextIndex.get z ≤ x.entries.log.length
  saved : x.state = .primary → ∀ z ∈ c.configuration,
    -1 ≤ x.followerSavedIndex.get z ∧ x.followerSavedIndex.get z < x.entries.log.length

section Runs

variable {SM : Type} [StateMachine SM] {c : Cluster} {σ : System SM} {e : Event} {rest : List Packet} {p : Packet}
  {resp : RespAppendEntryRpc} {s : Addr} {x : RaftServer}

theorem Known.le_majorityIndex_iff {k : Int} (hk : Known c s x) (hs : s ∈ c.configuration)
    (hkeys : x.followerSavedIndex.keys = c.configuration) : k ≤ x.majorityIndex ↔ x.MajorityHolds k := by
  have hconf := hk.configuration
  refine RaftServer.le_majorityIndex_iff (.of_eq (by rw [hkeys, hconf])) (by rw [hk.majority, hconf]) ?_
  rw [hconf]
  exact List.ne_nil_of_mem hs

/-- A majority of the servers holds an index at which all do, and none where none does. -/
theorem Known.majorityIndex_range {n : Int} (hk : Known c s x) (hs : s ∈ c.configuration)
    (hkeys : x.followerSavedIndex.keys = c.configuration)
    (hall : ∀ z ∈ c.configuration, -1 ≤ x.followerSavedIndex.get z ∧ x.followerSavedIndex.get z < n) :
    -1 ≤ x.majorityIndex ∧ x.majorityIndex < n := by
  have hpos := List.length_pos_of_mem hs
  have hm := hk.majority
  constructor
  · rw [hk.le_majorityIndex_iff hs hkeys, RaftServer.MajorityHolds, hk.configuration,
      List.countP_eq_length.mpr fun z hz => by simpa using (hall z hz).1]
    omega
  · rw [← Int.not_le, hk.le_majorityIndex_iff hs hkeys, RaftServer.MajorityHolds, hk.configuration,
      List.countP_eq_zero.mpr fun z hz => by simpa using (hall z hz).2]
    omega

omit [StateMachine SM] in
theorem Ranges.ackedIndex_range (h : Ranges c x) (hx : x.state = .primary) (hs : resp.server ∈ c.configuration)
    (hle : x.nextIndex.get resp.server ≤ x.entries.log.length) :
    -1 ≤ x.ackedIndex resp.server resp ∧ x.ackedIndex resp.server resp < x.entries.log.length := by
  have hnext := h.next hx _ hs
  unfold RaftServer.ackedIndex
  rw [Entries.size_eq]
  split
  · omega
  · rename_i hne
    rw [not_or] at hne
    omega

end Runs

/-! ## What an outcome leaves -/

namespace RaftServer

variable {c : Cluster} {s : Addr} {x y : RaftServer} {input : Input}

theorem Outcome.saved_keys (h : Outcome x input y) (hk : Known c s x) (hs : s ∈ c.configuration)
    (hfrom : ∀ resp ∈ input.respAppend?, resp.server ∈ c.configuration)
    (hkeys : x.followerSavedIndex.keys = c.configuration) : y.followerSavedIndex.keys = c.configuration := by
  have hself : x.server ∈ c.configuration := by
    rw [hk.server]
    exact hs
  cases h.saves with
  | same hs => rw [hs, hkeys]
  | appended hs => rw [hs, StdMap.keys_set_of_mem _ (by rwa [hkeys]), hkeys]
  | won hs =>
    have hall : (x.followerSavedIndex.setAll x.configuration (-1)).keys = c.configuration := by
      rw [StdMap.keys_setAll_of_mem _ (by rw [hkeys, hk.configuration]; exact fun _ h => h), hkeys]
    rw [hs, StdMap.keys_set_of_mem _ (by rwa [hall]), hall]
  | acked hi hp hs =>
    have := hfrom _ (Input.mem_respAppend?.mpr ⟨_, hi, hp⟩)
    rw [hs, StdMap.keys_set_of_mem _ (by rwa [hkeys]), hkeys]

/-- An entry's `index` is its position. -/
theorem Outcome.indexed (h : Outcome x input y)
    (hx : ∀ (i : Nat) entry, x.entries.log[i]? = some entry → entry.index = i) :
    ∀ (i : Nat) entry, y.entries.log[i]? = some entry → entry.index = i := by
  intro i entry hget
  cases h.log with
  | same hlog => exact hx i entry (by rwa [hlog] at hget)
  | appended hi hterm hstate hlog =>
    rw [hlog] at hget
    rcases Nat.lt_trichotomy i x.entries.log.length with hlt | rfl | hgt
    · rw [List.getElem?_append_left hlt] at hget
      exact hx i entry hget
    · rw [List.getElem?_concat_length] at hget
      cases hget
      rfl
    · rw [List.getElem?_eq_none (by simp; omega)] at hget
      cases hget
  | @accepted p ae hi hp ha =>
    have hlog := ha.log
    unfold AcceptedLog at hlog
    split at hlog
    · rw [hlog.2] at hget
      exact hx i entry hget
    · rename_i new tail hent
      obtain ⟨n, -, hnew, hle, hlog⟩ := hlog
      rw [hlog] at hget
      have hlen : (x.entries.log.take n).length = n := List.length_take_of_le hle
      rcases Nat.lt_trichotomy i n with hlt | rfl | hgt
      · rw [List.getElem?_append_left (by omega), List.getElem?_take_of_lt hlt] at hget
        exact hx i entry hget
      · rw [List.getElem?_append_right (by omega), hlen, Nat.sub_self] at hget
        cases hget
        exact hnew
      · rw [List.getElem?_eq_none (by simp; omega)] at hget
        cases hget

/-- The tables of a primary reach no further than its log. -/
theorem Outcome.tables (h : Outcome x input y) (hk : Known c s x)
    (hfrom : ∀ resp ∈ input.respAppend?, resp.server ∈ c.configuration) (hx : Ranges c x)
    (hy : y.state = .primary) :
    ∀ z ∈ c.configuration,
    (0 ≤ y.nextIndex.get z ∧ y.nextIndex.get z ≤ y.entries.log.length) ∧
    (-1 ≤ y.followerSavedIndex.get z ∧ y.followerSavedIndex.get z < y.entries.log.length) := by
  intro z hz
  cases h.leads hy with
  | same hp _ hlog hnext hsaved =>
    rw [hlog, hnext, hsaved]
    exact ⟨hx.next hp z hz, hx.saved hp z hz⟩
  | appended _ hp _ hlog hnext hsaved =>
    have hn := hx.next hp z hz
    have hs := hx.saved hp z hz
    rw [hlog, hnext, hsaved, StdMap.get_set, List.length_append, List.length_singleton]
    refine ⟨by omega, ?_⟩
    split <;> omega
  | won _ _ _ _ _ _ _ _ hlog hnext hsaved =>
    rw [← hk.configuration] at hz
    rw [hlog, hnext z hz, hsaved z hz]
    refine ⟨by omega, ?_⟩
    split <;> omega
  | @acked p resp hi hp hstate _ _ _ _ hlog hle hnext _ hsaved =>
    have hn := hx.next hstate z hz
    have hs := hx.saved hstate z hz
    have ha := hx.ackedIndex_range hstate (hfrom _ (Input.mem_respAppend?.mpr ⟨_, hi, hp⟩)) hle
    rw [hlog, hnext, hsaved, RaftServer.counting, RaftServer.saved_followerSavedIndex, StdMap.get_set]
    split
    · rename_i hzr
      subst hzr
      omega
    · exact ⟨hn, hs⟩
  | nacked hi hp hstate _ _ _ _ hlog hne hnext _ hsaved =>
    have hn := hx.next hstate z hz
    rw [hlog, hnext, hsaved]
    refine ⟨?_, hx.saved hstate z hz⟩
    split
    · rename_i hzr
      subst hzr
      omega
    · exact hn

/-- The commit index stays inside the log. -/
theorem Outcome.commit_range (h : Outcome x input y) (hk : Known c s x) (hs : s ∈ c.configuration)
    (hfrom : ∀ resp ∈ input.respAppend?, resp.server ∈ c.configuration) (hx : Ranges c x) :
    -1 ≤ y.commitIndex ∧ y.commitIndex < y.entries.log.length := by
  have hlo := hx.commit_lo
  have hhi := hx.commit_hi
  cases h.commit with
  | same hcommit =>
    rw [hcommit]
    cases h.log with
    | same hlog => rw [hlog]; exact ⟨hlo, hhi⟩
    | appended _ _ _ hlog => rw [hlog, List.length_append]; omega
    | accepted _ _ ha =>
      have := ha.commit
      omega
  | accepted _ _ ha =>
    have := ha.commit
    have := ha.commit_le
    omega
  | counted hc =>
    obtain ⟨_, _, _, _, _, _, hy, _, hown⟩ := hc
    have hkeys := h.saved_keys hk hs hfrom hx.keys
    rw [hown]
    exact (h.known hk).majorityIndex_range hs hkeys fun z hz => (h.tables hk hfrom hx hy z hz).2

/-- **An outcome keeps the indexes in range.** -/
theorem Outcome.ranges (h : Outcome x input y) (hk : Known c s x) (hs : s ∈ c.configuration)
    (hfrom : ∀ resp ∈ input.respAppend?, resp.server ∈ c.configuration) (hidle : x.effects = [])
    (hx : Ranges c x) :
    Ranges c y where
  indexed := h.indexed hx.indexed
  commit_lo := (h.commit_range hk hs hfrom hx).1
  commit_hi := (h.commit_range hk hs hfrom hx).2
  applied := by
    have := hx.applied
    rcases (h.applied hidle).smc with ⟨hs, -⟩ | hs
    · rwa [hs]
    · rw [hs]
      dsimp only
      omega
  smc := by
    rcases (h.applied hidle).smc with ⟨hs, hc⟩ | hs
    · rw [hs, hc, hx.smc]
    · rw [hs]
  keys := h.saved_keys hk hs hfrom hx.keys
  next := fun hy z hz => (h.tables hk hfrom hx hy z hz).1
  saved := fun hy z hz => (h.tables hk hfrom hx hy z hz).2

end RaftServer

section Runs

variable {SM : Type} [StateMachine SM] {c : Cluster} {σ : System SM} {e : Event} {rest : List Packet} {p : Packet}
  {resp : RespAppendEntryRpc} {s : Addr} {x : RaftServer}

theorem Step.respAppend_server (hr : Reachable c σ) (h : Step c σ e rest) (hi : e.input = .message p)
    (hp : p.rpc = .respAppend resp) : resp.server ∈ c.configuration := by
  obtain ⟨hsent, -, -⟩ := h.delivered hr hi
  obtain ⟨q, ae, x, hreply⟩ := hr.ae_reply hsent hp
  rw [hreply.server]
  exact hr.src_mem hsent

theorem Step.from_cluster (hr : Reachable c σ) (h : Step c σ e rest) :
    ∀ resp ∈ e.input.respAppend?, resp.server ∈ c.configuration := by
  intro resp hresp
  obtain ⟨p, hi, hp⟩ := Input.mem_respAppend?.mp hresp
  exact h.respAppend_server hr hi hp

theorem Step.commit_range (hr : Reachable c σ) (h : Step c σ e rest) (hx : Ranges c e.before) :
    -1 ≤ e.after.commitIndex ∧ e.after.commitIndex < e.after.entries.log.length :=
  (h.outcome hr).commit_range (h.known_before hr) h.member (h.from_cluster hr) hx

theorem Step.ranges (hr : Reachable c σ) (h : Step c σ e rest) (hx : Ranges c e.before) : Ranges c e.after :=
  (h.outcome hr).ranges (h.known_before hr) h.member (h.from_cluster hr) (h.idle hr) hx

omit [StateMachine SM] in
theorem Ranges.start (c : Cluster) (s : Addr) : Ranges c (RaftServer.start s c.configuration) where
  indexed := fun i entry h => by cases h
  commit_lo := by simp [RaftServer.start]
  commit_hi := by simp [RaftServer.start]
  applied := by simp [RaftServer.start]
  smc := rfl
  keys := StdMap.keys_setAll_empty _ c.nodup
  next := fun hs => by cases hs
  saved := fun hs => by cases hs

theorem Ranges.taken (h : Ranges c x) : Ranges c x.taken :=
  ⟨h.indexed, h.commit_lo, h.commit_hi, h.applied, h.smc, h.keys, h.next, h.saved⟩

/-- **The indexes of every server are in range.** -/
theorem Reachable.ranges (hr : Reachable c σ) : ∀ s, Ranges c (σ.raft s) := by
  refine hr.invariant (I := fun σ => ∀ s, Ranges c (σ.raft s)) (fun s => .start c s) ?_
  intro σ e rest hr h ih s
  rw [System.raft_next]
  split
  · exact (h.ranges hr (by rw [h.before]; exact ih e.server)).taken
  · exact ih s

theorem Step.ranges_before (hr : Reachable c σ) (h : Step c σ e rest) : Ranges c e.before := by
  rw [h.before]
  exact hr.ranges e.server

theorem Reachable.ranges_sent (hr : Reachable c σ) (hp : Sent σ.trace p) : Ranges c p.sender := by
  obtain ⟨σ₀, d, rest, hr₀, -, hst, hpd⟩ := hr.sent hp
  rw [(Event.mem_packets.mp hpd).2.2.2]
  exact hst.ranges hr₀ (hst.ranges_before hr₀)

end Runs

end MyRaft
