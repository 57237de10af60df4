import NexusLedger.Discovery
import Mathlib.Data.List.Dedup

/-! Which endpoints the peers table keeps, and which ones a node dials. -/

namespace NexusLedger

/-! ### The endpoints that the table keeps -/

namespace PeerStore
variable {peers : PeerStore} {p : PeerRow} {calls : List (Endpoint × Int64)}

/-- `addPeer` as the PEERS_LIST handler calls it, each time with the second of the call. -/
def addPeers (peers : PeerStore) (calls : List (Endpoint × Int64)) : PeerStore :=
  calls.foldl (fun peers x => (peers.addPeer x.1.ip x.1.port "" x.2).2) peers

/-- A node id is taken by the first row that has it. -/
theorem addPeer_of_known {nodeId : String} (hp : p ∈ peers.rows) (hid : p.nodeId = .bind nodeId) (ip : String)
    (port : Int32) (now : Int64) : (peers.addPeer ip port nodeId now).2 = peers := by
  refine Table.insertOrIgnore_of_clash hp ?_
  simp [peersSchema, hid]

theorem addPeers_of_known (hp : p ∈ peers.rows) (hid : p.nodeId = .bind "") (calls : List (Endpoint × Int64)) :
    peers.addPeers calls = peers := by
  induction calls with
  | nil => rfl
  | cons x calls ih =>
    rw [addPeers, List.foldl_cons, addPeer_of_known hp hid]
    exact ih

/-- Only the first endpoint gets in. -/
theorem rows_addPeers_cons {x : Endpoint × Int64} (hport : 0 < x.1.port ∧ x.1.port < 65536)
    (calls : List (Endpoint × Int64)) :
    (addPeers Table.empty (x :: calls)).rows =
      [{ ipAddress := .bind x.1.ip, port := x.1.port, nodeId := .bind "", lastSeen := x.2 }] := by
  have hfits : (Table.empty : PeerStore).fits
      { ipAddress := .bind x.1.ip, port := x.1.port, nodeId := .bind "", lastSeen := x.2 } = true := by
    rw [Table.fits_iff]
    refine ⟨?_, fun a ha => absurd ha List.not_mem_nil⟩
    simp only [peersSchema, hport.1, hport.2, decide_true, Bool.and_true]
  have hrows := Table.insertOrIgnore_of_fits hfits
  rw [addPeers, List.foldl_cons]
  have hrest : addPeers (addPeer Table.empty x.1.ip x.1.port "" x.2).2 calls = _ :=
    addPeers_of_known (hrows ▸ List.mem_append_right _ (List.mem_singleton_self _)) rfl calls
  rw [addPeers] at hrest
  rw [hrest]
  exact hrows

theorem getPeers_of_rows {n : Int32} (hrows : peers.rows = [p]) (hn : 1 ≤ n.toInt) :
    peers.getPeers n = [{ ip := p.ipAddress.val, port := p.port }] := by
  have hnat : n.toInt.toNat = (n.toInt.toNat - 1) + 1 := by omega
  have hpos : ¬n < 0 := by
    rw [Int32.not_lt, Int32.le_iff_toInt_le]
    exact le_trans (by decide) hn
  unfold getPeers byLastSeen limit
  have hsort : [p].insertionSort (fun a b => b.lastSeen ≤ a.lastSeen) = [p] :=
    List.perm_singleton.mp (List.perm_insertionSort _ _)
  rw [hrows, if_neg hpos, hnat, List.reverse_singleton, hsort, List.take_succ_cons, List.take_nil]
  rfl

/-- The table lists the endpoints that were added exactly when all calls name one endpoint, and its address is kept
    as it is. -/
theorem peer_set_iff (calls : List (Endpoint × Int64)) (n : Int32)
    (hports : ∀ x ∈ calls, 0 < x.1.port ∧ x.1.port < 65536)
    (hn : ((calls.map (·.1)).dedup.length : ℤ) ≤ n.toInt) :
    ((addPeers Table.empty calls).getPeers n).Perm (calls.map (·.1)).dedup ↔
      (∀ x ∈ calls, ∀ y ∈ calls, x.1 = y.1) ∧ ∀ x ∈ calls, cText x.1.ip = x.1.ip := by
  cases calls with
  | nil =>
    have hnone : (addPeers Table.empty []).getPeers n = [] := by
      unfold getPeers byLastSeen limit
      split <;> simp [addPeers, Table.empty]
    simp [hnone, List.dedup_nil]
  | cons x calls =>
    have hlow : 1 ≤ n.toInt := by
      have hmem : x.1 ∈ ((x :: calls).map (·.1)).dedup := List.mem_dedup.mpr (List.mem_map_of_mem List.mem_cons_self)
      have hpos := List.length_pos_of_mem hmem
      omega
    rw [getPeers_of_rows (rows_addPeers_cons (hports x List.mem_cons_self) calls) hlow,
      List.perm_ext_iff_of_nodup (List.nodup_singleton _) (List.nodup_dedup _)]
    simp only [List.mem_singleton, List.mem_dedup, CString.bind_val]
    constructor
    · intro h
      have hkept : ∀ y ∈ x :: calls, y.1 = { ip := cText x.1.ip, port := x.1.port } :=
        fun y hy => (h y.1).mpr (List.mem_map_of_mem hy)
      have hfirst : cText x.1.ip = x.1.ip := (congrArg Endpoint.ip (hkept x List.mem_cons_self)).symm
      refine ⟨fun y hy z hz => (hkept y hy).trans (hkept z hz).symm, fun y hy => ?_⟩
      rw [hkept y hy]
      exact cText_cText _
    · rintro ⟨hsame, htext⟩ e
      have hfirst : ({ ip := cText x.1.ip, port := x.1.port } : Endpoint) = x.1 := by
        rw [htext x List.mem_cons_self]
      rw [hfirst]
      constructor
      · rintro rfl
        exact List.mem_map_of_mem List.mem_cons_self
      · intro he
        obtain ⟨y, hy, rfl⟩ := List.mem_map.mp he
        exact hsame y hy x List.mem_cons_self

def firstCall : Endpoint × Int64 := ({ ip := "10.0.0.1", port := 8000 }, 1700000000)

def secondCall : Endpoint × Int64 := ({ ip := "10.0.0.2", port := 8001 }, 1700000000)

/-- One peer may be named again and again. -/
theorem peer_set_iff_repeated :
    ((addPeers Table.empty [firstCall, firstCall]).getPeers 10).Perm ([firstCall, firstCall].map (·.1)).dedup ↔
      (∀ x ∈ [firstCall, firstCall], ∀ y ∈ [firstCall, firstCall], x.1 = y.1) ∧
        ∀ x ∈ [firstCall, firstCall], cText x.1.ip = x.1.ip :=
  peer_set_iff [firstCall, firstCall] 10 (by decide) (by decide)

/-- Of two peers that are named the second one is lost. -/
theorem second_peer_ignored :
    (∀ x ∈ [firstCall, secondCall], 0 < x.1.port ∧ x.1.port < 65536) ∧
      ¬((addPeers Table.empty [firstCall, secondCall]).getPeers 10).Perm
          ([firstCall, secondCall].map (·.1)).dedup := by
  refine ⟨by decide, fun hperm => ?_⟩
  rw [getPeers_of_rows (rows_addPeers_cons (by decide) _) (by decide)] at hperm
  have hlength := hperm.length_eq
  revert hlength
  decide

end PeerStore

/-! ### The endpoints that are dialed -/

namespace Node
variable {own e : Endpoint} {payload : Json} {p2pPort : Int32}

/-- The endpoints of a PEERS_LIST payload: those of its members that can be read. -/
def listed : Json → List Endpoint
  | .arr peers => peers.filterMap fun p => (readEndpoint p).toOption
  | _ => []

/-- The endpoints in front of the first member that cannot be read. -/
def reached : List Json → List Endpoint
  | [] => []
  | p :: rest =>
    match readEndpoint p with
    | .error _ => []
    | .ok e => e :: reached rest

/-- Among the endpoints that are offered to a node, all but its own are dialed, and that one is not. -/
structure Discovers (own : Endpoint) (offered dialed : List Endpoint) : Prop where
  others : ∀ e ∈ offered, e.ip ≠ "" → 0 < e.port → e ≠ own → e ∈ dialed
  notSelf : own ∉ dialed

theorem mem_listDials {peers : List Json} :
    e ∈ listDials p2pPort peers ↔ e ∈ reached peers ∧ e.ip ≠ "" ∧ 0 < e.port ∧ e.port ≠ p2pPort := by
  induction peers with
  | nil => simp [listDials, reached]
  | cons p rest ih =>
    unfold listDials reached
    cases readEndpoint p with
    | error err => simp
    | ok first =>
      simp only
      split
      · rename_i hdial
        rw [List.mem_cons, List.mem_cons, ih, or_and_right]
        refine or_congr_left ⟨?_, And.left⟩
        rintro rfl
        exact ⟨rfl, hdial⟩
      · rename_i hpass
        rw [List.mem_cons, ih, or_and_right]
        refine ⟨Or.inr, fun h => h.resolve_left ?_⟩
        rintro ⟨rfl, hdial⟩
        exact hpass hdial

/-- The endpoints of a payload that the loop comes to. -/
def reachedOf : Json → List Endpoint
  | .arr peers => reached peers
  | _ => []

theorem mem_peersListDials :
    e ∈ peersListDials p2pPort payload ↔ e ∈ reachedOf payload ∧ e.ip ≠ "" ∧ 0 < e.port ∧ e.port ≠ p2pPort := by
  cases payload with
  | arr peers => exact mem_listDials
  | _ => simp [peersListDials, reachedOf]

theorem port_ne_of_mem_startDials {saved : List Endpoint} (h : e ∈ startDials p2pPort saved) : e.port ≠ p2pPort := by
  unfold startDials at h
  rcases List.mem_append.mp h with h | h
  · simpa using (List.mem_filter.mp h).2
  · split at h
    · simpa using (List.mem_filter.mp h).2
    · cases h

theorem mem_startDials {saved : List Endpoint} (h : e ∈ saved) : e ∈ startDials p2pPort saved ↔ e.port ≠ p2pPort := by
  refine ⟨port_ne_of_mem_startDials, fun hport => ?_⟩
  exact List.mem_append_left _ (List.mem_filter.mpr ⟨h, by simpa using hport⟩)

/-- Discovery leaves out every node that has the port of this one, wherever it runs, and what stands behind a member
    of the message that cannot be read; otherwise it dials all but the node itself. -/
theorem discovery_iff (own : Endpoint) (payload : Json) (saved : List Endpoint) :
    (Discovers own (listed payload) (peersListDials own.port payload) ↔
        ∀ e ∈ listed payload, e.ip ≠ "" → 0 < e.port → e ≠ own → e.port ≠ own.port ∧ e ∈ reachedOf payload) ∧
      (Discovers own saved (startDials own.port saved) ↔
        ∀ e ∈ saved, e.ip ≠ "" → 0 < e.port → e ≠ own → e.port ≠ own.port) := by
  constructor
  · constructor
    · intro h e he hip hport hne
      obtain ⟨hreached, -, -, hother⟩ := mem_peersListDials.mp (h.others e he hip hport hne)
      exact ⟨hother, hreached⟩
    · intro h
      refine ⟨fun e he hip hport hne => ?_, fun hself => (mem_peersListDials.mp hself).2.2.2 rfl⟩
      obtain ⟨hother, hreached⟩ := h e he hip hport hne
      exact mem_peersListDials.mpr ⟨hreached, hip, hport, hother⟩
  · constructor
    · intro h e he hip hport hne
      exact (mem_startDials he).mp (h.others e he hip hport hne)
    · intro h
      refine ⟨fun e he hip hport hne => ?_, fun hself => port_ne_of_mem_startDials hself rfl⟩
      exact (mem_startDials he).mpr (h e he hip hport hne)

/-- Two nodes on the default port never dial each other. -/
theorem same_port_not_dialed :
    ¬Discovers { ip := "10.0.0.1", port := 8000 }
        (listed (.arr [.obj [("ip", .str "10.0.0.2"), ("port", .int 8000)]]))
        (peersListDials 8000 (.arr [.obj [("ip", .str "10.0.0.2"), ("port", .int 8000)]])) ∧
      ¬Discovers { ip := "10.0.0.1", port := 8000 } [{ ip := "10.0.0.2", port := 8000 }]
        (startDials 8000 [{ ip := "10.0.0.2", port := 8000 }]) := by
  have hlisted : { ip := "10.0.0.2", port := 8000 } ∈
      listed (.arr [.obj [("ip", .str "10.0.0.2"), ("port", .int 8000)]]) := by decide
  constructor
  · intro h
    have hdialed := h.others _ hlisted (by decide) (by decide) (by decide)
    exact (mem_peersListDials.mp hdialed).2.2.2 rfl
  · intro h
    have hdialed := h.others _ List.mem_cons_self (by decide) (by decide) (by decide)
    exact port_ne_of_mem_startDials hdialed rfl

end Node

end NexusLedger
