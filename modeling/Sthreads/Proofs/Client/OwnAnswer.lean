/-
A client call never returns another call's answer.

As long as fewer than 2^32 calls were made, a serial number belongs to one call.  A call
sends its request to a server at most once and a server answers a datagram at most once,
so among the datagrams in flight and the responses already counted there is at most one
for each call and server (`Matching.once`).  Responses that match on the write path
therefore come from different servers, and when there are as many as servers, from all.
-/
import Sthreads.Lib.RingBuffer
import Sthreads.Client.Remote
import Mathlib.Data.List.Nodup
import Mathlib.Data.List.Perm.Subperm
import Mathlib.Data.List.Perm.Basic
import Mathlib.Tactic.Common

namespace Sthreads.Client

variable {B R : Type}

/-! ### Serial numbers -/

/-- The serial number of the `n`-th call. -/
def serial (n : Nat) : Int := (n : Int).bmod intValues

theorem intSucc_serial (n : Nat) : intSucc (serial n) = serial (n + 1) := by
  unfold intSucc serial
  rw [Int.bmod_add_bmod, Int.natCast_succ]

theorem serial_injective {a b : Nat} (ha : a < intValues) (hb : b < intValues)
    (h : serial a = serial b) : a = b := by
  have hmod := congrArg (fun z : Int => z % intValues) h
  simp only [serial, Int.bmod_emod] at hmod
  rw [← Int.natCast_mod, ← Int.natCast_mod, Nat.mod_eq_of_lt ha, Nat.mod_eq_of_lt hb] at hmod
  exact Int.natCast_inj.mp hmod

/-! ### What is in flight -/

/-- The call and the server a request belongs to. -/
def Datagram.key (d : Datagram B) : Nat × Nat := (d.call, d.server)

/-- The call and the server a response belongs to. -/
def Reply.key (r : Reply R) : Nat × Nat := (r.call, r.server)

/-- The responses counted so far. -/
def CallPc.counted : CallPc B R → List (Reply R)
  | .receiveAll _ responses => responses
  | _ => []

/-- The request of the call under way. -/
def CallPc.request : CallPc B R → Option (MsgReq B)
  | .idle => none
  | .sendAll req _ => some req
  | .receiveAll req _ => some req
  | .sendSome req _ => some req
  | .receiveOne req _ => some req

namespace Remote

/-- The servers the call under way has sent its request to. -/
def sentTo (c : Servers) (s : Remote B R) : List Nat :=
  match s.pc with
  | .idle => []
  | .sendAll _ i => List.range i
  | .receiveAll _ _ => List.range c.numServers
  | .sendSome _ k => s.readServers c k
  | .receiveOne _ contacted => contacted

/-- Whose request or response is in flight or counted. -/
def keys (s : Remote B R) : List (Nat × Nat) :=
  s.requests.map Datagram.key ++ (s.responses.map Reply.key ++ s.pc.counted.map Reply.key)

end Remote

/-- The response of a call that returned was produced for it, on the write path by every server. -/
structure Own (c : Servers) (produced : List (Reply R)) (o : Returned R) : Prop where
  read : o.toAllServers = false →
    (o.contacted.length = c.readers ∧ o.contacted.Nodup ∧ ∀ i ∈ o.contacted, i < c.numServers) ∧
      ∃ r ∈ produced, r.call = o.call ∧ r.server ∈ o.contacted ∧ r.res = o.res
  write : o.toAllServers = true →
    (∀ i, i < c.numServers →
      ∃ r ∈ produced, r.call = o.call ∧ r.server = i ∧ r.res.status = o.res.status) ∧
      ∃ r ∈ produced, r.call = o.call ∧ r.res = o.res

theorem Own.mono {c : Servers} {produced : List (Reply R)} {o : Returned R}
    (h : Own c produced o) (r : Reply R) : Own c (produced ++ [r]) o where
  read ho := by
    obtain ⟨hc, r', hr', hrest⟩ := h.read ho
    exact ⟨hc, r', List.mem_append_left _ hr', hrest⟩
  write ho := by
    obtain ⟨hall, r', hr', hrest⟩ := h.write ho
    refine ⟨fun i hi => ?_, r', List.mem_append_left _ hr', hrest⟩
    obtain ⟨r'', hr'', hrest'⟩ := hall i hi
    exact ⟨r'', List.mem_append_left _ hr'', hrest'⟩

/-- What the call under way has done so far is in range. -/
def InRange (c : Servers) (s : Remote B R) : Prop :=
  match s.pc with
  | .idle => True
  | .sendAll _ i => i < c.numServers
  | .receiveAll _ responses => responses.length < c.numServers
  | .sendSome _ k => k < c.readers
  | .receiveOne _ contacted =>
      contacted.length = c.readers ∧ contacted.Nodup ∧ ∀ i ∈ contacted, i < c.numServers

/-- What is in flight belongs to calls that were made, and nothing is there twice. -/
structure Traffic (c : Servers) (s : Remote B R) : Prop where
  nextSn : s.nextSn = serial s.calls
  requests : ∀ d ∈ s.requests, d.req.sn = serial d.call
  responses : ∀ r ∈ s.responses, r.res.sn = serial r.call ∧ r ∈ s.produced
  counted : ∀ r ∈ s.pc.counted, r.call + 1 = s.calls ∧ r ∈ s.produced
  made : ∀ key ∈ s.keys, key.1 < s.calls ∧ key.2 < c.numServers
  once : s.keys.Nodup
  returned : ∀ o ∈ s.returned, Own c s.produced o

/-- And what belongs to the call under way went to the servers it has sent to. -/
structure Matching (c : Servers) (s : Remote B R) : Prop extends Traffic c s where
  current : ∀ req, s.pc.request = some req → 0 < s.calls ∧ req.sn = serial (s.calls - 1) ∧
    ∀ key ∈ s.keys, key.1 + 1 = s.calls → key.2 ∈ s.sentTo c
  inRange : InRange c s

/-- The servers of the read path are servers, and different ones. -/
theorem readServers_spec {c : Servers} (hn : 0 < c.numServers) (s : Remote B R) {k : Nat}
    (hk : k ≤ c.readers) : (s.readServers c k).length = k ∧ (s.readServers c k).Nodup ∧
      ∀ i ∈ s.readServers c k, i < c.numServers := by
  have hle : c.readers ≤ c.numServers := Nat.min_le_right _ _
  refine ⟨by rw [Remote.readServers, List.length_map, List.length_range], ?_, ?_⟩
  · refine List.Nodup.map_on (fun i hi j hj heq => ?_) List.nodup_range
    rw [List.mem_range] at hi hj
    rcases Nat.lt_trichotomy i j with hlt | rfl | hlt
    · exact absurd heq (cell_ne hlt (by omega))
    · rfl
    · exact absurd heq.symm (cell_ne hlt (by omega))
  · intro i hi
    obtain ⟨j, -, rfl⟩ := List.mem_map.mp hi
    exact Nat.mod_lt _ hn

namespace Traffic

variable {c : Servers} {s : Remote B R}

/-- The program point moves to one where nothing is counted. -/
theorem repc (h : Traffic c s) (pc : CallPc B R) (hpc : pc.counted = []) (rr : Nat) :
    Traffic c { s with pc := pc, rrIndex := rr } := by
  have hsub : List.Sublist (Remote.keys { s with pc := pc, rrIndex := rr }) s.keys := by
    refine List.Sublist.append_left (List.Sublist.append_left ?_ _) _
    rw [hpc]
    exact List.nil_sublist _
  constructor
  · exact h.nextSn
  · exact h.requests
  · exact h.responses
  · intro r hr
    rw [hpc] at hr
    cases hr
  · exact fun key hk => h.made key (hsub.subset hk)
  · exact h.once.sublist hsub
  · exact h.returned

/-- A call takes the next serial number. -/
theorem call (h : Traffic c s) (hpc : s.pc = .idle) :
    Traffic c { s with nextSn := intSucc s.nextSn, calls := s.calls + 1 } := by
  constructor
  · change intSucc s.nextSn = serial (s.calls + 1)
    rw [h.nextSn, intSucc_serial]
  · exact h.requests
  · exact h.responses
  · intro r hr
    rw [hpc] at hr
    cases hr
  · exact fun key hk => ⟨Nat.lt_succ_of_lt (h.made key hk).1, (h.made key hk).2⟩
  · exact h.once
  · exact h.returned

/-- A datagram goes to a server that has none of this call yet. -/
theorem sendTo (h : Traffic c s) {req : MsgReq B} {i : Nat} (hcalls : 0 < s.calls)
    (hsn : req.sn = serial (s.calls - 1)) (hi : i < c.numServers)
    (hnew : (s.calls - 1, i) ∉ s.keys) : Traffic c (s.sendTo req i) := by
  have hperm : (s.sendTo req i).keys.Perm ((s.calls - 1, i) :: s.keys) := by
    unfold Remote.keys Remote.sendTo
    rw [List.map_append, List.append_assoc]
    exact List.perm_middle
  constructor
  · exact h.nextSn
  · intro d hd
    rcases List.mem_append.mp hd with hd | hd
    · exact h.requests d hd
    · rw [List.mem_singleton.mp hd]
      exact hsn
  · exact h.responses
  · exact h.counted
  · intro key hk
    rcases List.mem_cons.mp (hperm.mem_iff.mp hk) with rfl | hk
    · exact ⟨Nat.sub_lt hcalls Nat.one_pos, hi⟩
    · exact h.made key hk
  · exact hperm.nodup_iff.mpr (List.nodup_cons.mpr ⟨hnew, h.once⟩)
  · exact h.returned

/-- A response arrives and is not looked at again. -/
theorem dropResponse (h : Traffic c s) (j : Nat) :
    Traffic c { s with responses := s.responses.eraseIdx j } := by
  have hsub : List.Sublist (Remote.keys { s with responses := s.responses.eraseIdx j }) s.keys :=
    List.Sublist.append_left
      (List.Sublist.append_right ((List.eraseIdx_sublist _ _).map _) _) _
  constructor
  · exact h.nextSn
  · exact h.requests
  · exact fun r hr => h.responses r ((List.eraseIdx_sublist _ _).subset hr)
  · exact h.counted
  · exact fun key hk => h.made key (hsub.subset hk)
  · exact h.once.sublist hsub
  · exact h.returned

/-- A response arrives and is counted. -/
theorem count (h : Traffic c s) {req : MsgReq B} {responses : List (Reply R)} {j : Nat}
    {r : Reply R} (hpc : s.pc = .receiveAll req responses) (hj : s.responses[j]? = some r)
    (hcall : r.call + 1 = s.calls) :
    Traffic c { s with
      responses := s.responses.eraseIdx j
      pc := .receiveAll req (responses ++ [r]) } := by
  obtain ⟨hlt, rfl⟩ := List.getElem?_eq_some_iff.mp hj
  have hmem := List.getElem_mem hlt
  have hperm : (Remote.keys { s with
      responses := s.responses.eraseIdx j
      pc := .receiveAll req (responses ++ [s.responses[j]]) }).Perm s.keys := by
    unfold Remote.keys
    rw [hpc]
    refine List.Perm.append_left _ ?_
    have hmove := (List.getElem_cons_eraseIdx_perm hlt).map Reply.key
    simp only [CallPc.counted, List.map_append, List.map_cons, List.map_nil]
    rw [← List.append_assoc]
    refine (List.perm_append_singleton _ _).trans ?_
    exact List.Perm.append_right _ hmove
  constructor
  · exact h.nextSn
  · exact h.requests
  · exact fun r hr => h.responses r ((List.eraseIdx_sublist _ _).subset hr)
  · intro r hr
    rcases List.mem_append.mp hr with hr | hr
    · exact h.counted r (by rw [hpc]; exact hr)
    · rw [List.mem_singleton.mp hr]
      exact ⟨hcall, (h.responses _ hmem).2⟩
  · exact fun key hk => h.made key (hperm.mem_iff.mp hk)
  · exact hperm.nodup_iff.mpr h.once
  · exact h.returned

/-- A server answers a datagram: the response takes its place. -/
theorem answer (h : Traffic c s) {j : Nat} {d : Datagram B} (hj : s.requests[j]? = some d)
    {r : Reply R} (hkey : r.key = d.key) (hsn : r.res.sn = d.req.sn) :
    Traffic c { s with
      requests := s.requests.eraseIdx j
      responses := s.responses ++ [r]
      produced := s.produced ++ [r] } ∧
    (Remote.keys { s with
      requests := s.requests.eraseIdx j
      responses := s.responses ++ [r]
      produced := s.produced ++ [r] }).Perm s.keys := by
  obtain ⟨hlt, rfl⟩ := List.getElem?_eq_some_iff.mp hj
  have hmem := List.getElem_mem hlt
  have hperm : (Remote.keys { s with
      requests := s.requests.eraseIdx j
      responses := s.responses ++ [r]
      produced := s.produced ++ [r] }).Perm s.keys := by
    unfold Remote.keys
    have hmove := (List.getElem_cons_eraseIdx_perm hlt).map Datagram.key
    rw [List.map_append, List.map_cons, List.map_nil, hkey, List.append_assoc,
      List.singleton_append, ← List.append_assoc]
    refine List.perm_middle.trans ?_
    rw [List.append_assoc, ← List.cons_append]
    exact List.Perm.append_right _ hmove
  have hcall : r.call = s.requests[j].call := congrArg Prod.fst hkey
  refine ⟨?_, hperm⟩
  constructor
  · exact h.nextSn
  · exact fun d hd => h.requests d ((List.eraseIdx_sublist _ _).subset hd)
  · intro r' hr'
    rcases List.mem_append.mp hr' with hr' | hr'
    · exact ⟨(h.responses r' hr').1, List.mem_append_left _ (h.responses r' hr').2⟩
    · rw [List.mem_singleton.mp hr']
      refine ⟨?_, List.mem_append_right _ (List.mem_singleton_self r)⟩
      rw [hsn, h.requests _ hmem, hcall]
  · exact fun r' hr' => ⟨(h.counted r' hr').1, List.mem_append_left _ (h.counted r' hr').2⟩
  · exact fun key hk => h.made key (hperm.mem_iff.mp hk)
  · exact hperm.nodup_iff.mpr h.once
  · exact fun o ho => (h.returned o ho).mono r

/-- A call returns with a response that is its own. -/
theorem succeed (h : Traffic c s) {all : Bool} {contacted : List Nat} {res : MsgRes R}
    (hown : Own c s.produced ⟨s.calls - 1, all, contacted, res⟩) :
    Matching c (s.succeed all contacted res) where
  toTraffic :=
    { h.repc .idle rfl s.rrIndex with
      returned := fun o ho => by
        rcases List.mem_append.mp ho with ho | ho
        · exact h.returned o ho
        · rw [List.mem_singleton.mp ho]
          exact hown }
  current req hreq := by cases hreq
  inRange := trivial

/-- The send loop of the write path. -/
theorem sendAllLoop (h : Traffic c s) (hnone : s.pc.counted = []) (hn : 0 < c.numServers)
    {req : MsgReq B} {i : Nat} (hcalls : 0 < s.calls)
    (hsn : req.sn = serial (s.calls - 1))
    (hcur : ∀ key ∈ s.keys, key.1 + 1 = s.calls → key.2 < i) :
    Matching c (s.sendAllLoop c req i) := by
  have hkeys : s.keys = s.requests.map Datagram.key ++ (s.responses.map Reply.key ++ []) := by
    rw [Remote.keys, hnone, List.map_nil]
  unfold Remote.sendAllLoop
  split
  · rename_i hlt
    refine ⟨h.repc (.sendAll req i) rfl s.rrIndex, ?_, hlt⟩
    intro req' hreq'
    obtain rfl := Option.some.inj hreq'
    refine ⟨hcalls, hsn, fun key hk hc => ?_⟩
    change key.2 ∈ List.range i
    exact List.mem_range.mpr (hcur key (by rw [hkeys]; exact hk) hc)
  · refine ⟨h.repc (.receiveAll req []) rfl s.rrIndex, ?_, hn⟩
    intro req' hreq'
    obtain rfl := Option.some.inj hreq'
    refine ⟨hcalls, hsn, fun key hk hc => ?_⟩
    change key.2 ∈ List.range c.numServers
    exact List.mem_range.mpr (h.made key (by rw [hkeys]; exact hk)).2

/-- The send loop of the read path. -/
theorem sendSomeLoop (h : Traffic c s) (hnone : s.pc.counted = []) (hn : 0 < c.numServers)
    {req : MsgReq B} {k : Nat} (hk : k ≤ c.readers) (hcalls : 0 < s.calls)
    (hsn : req.sn = serial (s.calls - 1))
    (hcur : ∀ key ∈ s.keys, key.1 + 1 = s.calls → key.2 ∈ s.readServers c k) :
    Matching c (s.sendSomeLoop c req k) := by
  have hkeys : s.keys = s.requests.map Datagram.key ++ (s.responses.map Reply.key ++ []) := by
    rw [Remote.keys, hnone, List.map_nil]
  unfold Remote.sendSomeLoop
  split
  · rename_i hlt
    refine ⟨h.repc (.sendSome req k) rfl s.rrIndex, ?_, hlt⟩
    intro req' hreq'
    obtain rfl := Option.some.inj hreq'
    exact ⟨hcalls, hsn, fun key hkey hc => hcur key (by rw [hkeys]; exact hkey) hc⟩
  · rename_i hge
    obtain ⟨hlen, hnd, hlt⟩ := readServers_spec hn s hk
    refine ⟨h.repc (.receiveOne req _) rfl _, ?_, hlen.trans (by omega), hnd, hlt⟩
    intro req' hreq'
    obtain rfl := Option.some.inj hreq'
    exact ⟨hcalls, hsn, fun key hkey hc => hcur key (by rw [hkeys]; exact hkey) hc⟩

end Traffic

namespace Matching

variable {c : Servers} {s s' : Remote B R}

theorem init : Matching c (Remote.init : Remote B R) where
  nextSn := Int.zero_bmod.symm
  requests d hd := by cases hd
  responses r hr := by cases hr
  counted r hr := by cases hr
  made key hk := by cases hk
  once := List.nodup_nil
  current req h := by cases h
  inRange := trivial
  returned o ho := by cases ho

/-- A call begins; nothing in flight is its own yet. -/
theorem remoteCall (h : Matching c s) (hpc : s.pc = .idle) (type : Int) (body : B) (all : Bool) :
    Matching c (s.remoteCall c type body all) := by
  have hcall := h.call hpc
  have hnone : s.pc.counted = [] := by rw [hpc]; rfl
  have hold : ∀ key ∈ s.keys, key.1 + 1 ≠ s.calls + 1 := fun key hk => by
    have := (h.made key hk).1
    omega
  have hsn : s.nextSn = serial (s.calls + 1 - 1) := h.nextSn
  unfold Remote.remoteCall
  dsimp only
  split
  · refine ⟨hcall, fun req hreq => ?_, ?_⟩
    · rw [hpc] at hreq
      cases hreq
    · exact h.inRange
  · rename_i hn
    have hpos : 0 < c.numServers := by omega
    split
    · exact hcall.sendAllLoop hnone hpos (Nat.succ_pos _) hsn
        fun key hk hc => absurd hc (hold key hk)
    · exact hcall.sendSomeLoop hnone hpos (Nat.zero_le _) (Nat.succ_pos _) hsn
        fun key hk hc => absurd hc (hold key hk)

/-- A `sendto` to the next server on the write path. -/
theorem sendNextAll (h : Matching c s) {req : MsgReq B} {i : Nat} (hpc : s.pc = .sendAll req i) :
    Matching c ((s.sendTo req i).sendAllLoop c req (i + 1)) := by
  obtain ⟨hcalls, hsn, hcur⟩ := h.current req (by rw [hpc]; rfl)
  have hi : i < c.numServers := by
    have hr := h.inRange
    rw [InRange, hpc] at hr
    exact hr
  rw [Remote.sentTo, hpc] at hcur
  have hnew : (s.calls - 1, i) ∉ s.keys := fun hmem =>
    absurd (List.mem_range.mp (hcur _ hmem (Nat.sub_add_cancel hcalls))) (Nat.lt_irrefl i)
  have hsend := h.sendTo hcalls hsn hi hnew
  refine hsend.sendAllLoop (by rw [Remote.sendTo, hpc]; rfl) (by omega) hcalls hsn ?_
  intro key hk hc
  unfold Remote.keys Remote.sendTo at hk
  rw [List.map_append, List.append_assoc] at hk
  rcases List.mem_cons.mp (List.perm_middle.mem_iff.mp hk) with rfl | hk
  · exact Nat.lt_succ_self i
  · exact Nat.lt_succ_of_lt (List.mem_range.mp (hcur key hk hc))

/-- A `sendto` to the next server on the read path. -/
theorem sendNextSome (h : Matching c s) {req : MsgReq B} {k : Nat}
    (hpc : s.pc = .sendSome req k) :
    Matching c ((s.sendTo req (s.readServer c k)).sendSomeLoop c req (k + 1)) := by
  obtain ⟨hcalls, hsn, hcur⟩ := h.current req (by rw [hpc]; rfl)
  have hk : k < c.readers := by
    have hr := h.inRange
    rw [InRange, hpc] at hr
    exact hr
  have hn : 0 < c.numServers := by
    have : c.readers ≤ c.numServers := Nat.min_le_right _ _
    omega
  have hlast : s.readServers c (k + 1) = s.readServers c k ++ [s.readServer c k] := by
    rw [Remote.readServers, List.range_succ, List.map_append]
    rfl
  obtain ⟨-, hnd, hlt⟩ := readServers_spec hn s (Nat.succ_le_of_lt hk)
  rw [hlast] at hnd hlt
  rw [Remote.sentTo, hpc] at hcur
  have hnew : (s.calls - 1, s.readServer c k) ∉ s.keys := fun hmem =>
    (List.nodup_append.mp hnd).2.2 _ (hcur _ hmem (Nat.sub_add_cancel hcalls)) _
      (List.mem_singleton_self _) rfl
  have hsend := h.sendTo hcalls hsn (hlt _ (by simp)) hnew
  refine hsend.sendSomeLoop (by rw [Remote.sendTo, hpc]; rfl) hn hk hcalls hsn ?_
  intro key hkey hc
  change key.2 ∈ s.readServers c (k + 1)
  rw [hlast]
  unfold Remote.keys Remote.sendTo at hkey
  rw [List.map_append, List.append_assoc] at hkey
  rcases List.mem_cons.mp (List.perm_middle.mem_iff.mp hkey) with rfl | hkey
  · exact List.mem_append_right _ (List.mem_singleton_self _)
  · exact List.mem_append_left _ (hcur key hkey hc)

/-- A response that is dropped. -/
theorem drop (h : Matching c s) (j : Nat) :
    Matching c { s with responses := s.responses.eraseIdx j } := by
  refine ⟨h.dropResponse j, fun req hreq => ?_, h.inRange⟩
  obtain ⟨hcalls, hsn, hcur⟩ := h.current req hreq
  refine ⟨hcalls, hsn, fun key hk hc => hcur key ?_ hc⟩
  exact (List.Sublist.append_left
    (List.Sublist.append_right ((List.eraseIdx_sublist _ _).map _) _) _).subset hk

/-- A response with the serial number of the call under way answers it. -/
theorem call_of_sn (h : Matching c s) (hfew : s.calls ≤ intValues) {req : MsgReq B}
    (hreq : s.pc.request = some req) {r : Reply R} (hr : r ∈ s.responses)
    (hsn : r.res.sn = req.sn) : r.call + 1 = s.calls := by
  obtain ⟨hcalls, hreqSn, -⟩ := h.current req hreq
  have hkey : r.key ∈ s.keys :=
    List.mem_append_right _ (List.mem_append_left _ (List.mem_map_of_mem hr))
  have hlt : r.call < s.calls := (h.made _ hkey).1
  have heq := serial_injective (by omega) (by omega)
    ((h.responses r hr).1.symm.trans (hsn.trans hreqSn))
  omega

/-- As many responses to this call as there are servers are responses of all of them. -/
theorem all_answered (h : Traffic c s) {req : MsgReq B} {responses : List (Reply R)}
    (hpc : s.pc = .receiveAll req responses) (hlen : c.numServers ≤ responses.length)
    {i : Nat} (hi : i < c.numServers) : ∃ r ∈ responses, r.server = i := by
  have hcounted : s.pc.counted = responses := by rw [hpc]; rfl
  have hkeys : ∀ r ∈ responses, r.key ∈ s.keys := fun r hr =>
    List.mem_append_right _ (List.mem_append_right _
      (List.mem_map_of_mem (by rw [hcounted]; exact hr)))
  have honce := (List.nodup_append.mp (List.nodup_append.mp h.once).2.1).2.1
  rw [hcounted] at honce
  have hnd : (responses.map Reply.server).Nodup := by
    refine List.Nodup.map_on (fun r hr r' hr' heq => ?_) (List.Nodup.of_map _ honce)
    have hc := (h.counted r (by rw [hcounted]; exact hr)).1
    have hc' := (h.counted r' (by rw [hcounted]; exact hr')).1
    have hkey : r.key = r'.key := Prod.ext (by simp only [Reply.key]; omega) heq
    exact List.inj_on_of_nodup_map honce hr hr' hkey
  have hsub : responses.map Reply.server ⊆ List.range c.numServers := by
    intro j hj
    obtain ⟨r, hr, rfl⟩ := List.mem_map.mp hj
    exact List.mem_range.mpr (h.made _ (hkeys r hr)).2
  have hperm := (hnd.subperm hsub).perm_of_length_le (by simpa using hlen)
  obtain ⟨r, hr, heq⟩ := List.mem_map.mp (hperm.mem_iff.mpr (List.mem_range.mpr hi))
  exact ⟨r, hr, heq⟩

/-- A response arrives on the write path. -/
theorem receivedAll (h : Matching c s) (hfew : s.calls ≤ intValues) {req : MsgReq B}
    {responses : List (Reply R)} {j : Nat} {r : Reply R}
    (hpc : s.pc = .receiveAll req responses) (hj : s.responses[j]? = some r)
    (hs : { s with responses := s.responses.eraseIdx j }.receivedAll c req responses r =
      some s') : Matching c s' := by
  have hmem := List.mem_of_getElem? hj
  unfold Remote.receivedAll at hs
  split at hs
  · rename_i hsn
    have hcall := h.call_of_sn hfew (by rw [hpc]; rfl) hmem hsn
    have hcount := h.count hpc hj hcall
    split at hs
    · cases hs
    · rename_i first rest heq
      rw [heq] at hcount
      split at hs
      · -- more servers have to answer
        rename_i hlt
        obtain rfl := Option.some.inj hs
        refine ⟨hcount, fun req' hreq' => ?_, hlt⟩
        obtain rfl := Option.some.inj hreq'
        obtain ⟨hcalls, hreqSn, -⟩ := h.current req (by rw [hpc]; rfl)
        exact ⟨hcalls, hreqSn, fun key hk _ => List.mem_range.mpr (hcount.made key hk).2⟩
      · rename_i hge
        split at hs
        · rename_i hsame
          obtain rfl := Option.some.inj hs
          have hstatus : ∀ r' ∈ first :: rest, r'.res.status = first.res.status := by
            intro r' hr'
            rcases List.mem_cons.mp hr' with rfl | hr'
            · rfl
            · exact eq_of_beq (List.all_eq_true.mp hsame r' hr')
          have hcalled : ∀ r' ∈ first :: rest, r'.call = s.calls - 1 ∧ r' ∈ s.produced := by
            intro r' hr'
            obtain ⟨hmade, hprod⟩ := hcount.counted r' hr'
            exact ⟨Nat.eq_sub_of_add_eq hmade, hprod⟩
          refine (h.dropResponse j).succeed ⟨fun hall => (Bool.noConfusion hall), fun _ => ?_⟩
          refine ⟨fun i hi => ?_, first, (hcalled first List.mem_cons_self).2,
            (hcalled first List.mem_cons_self).1, rfl⟩
          obtain ⟨r', hr', hi'⟩ := all_answered hcount rfl (Nat.le_of_not_lt hge) hi
          exact ⟨r', (hcalled r' hr').2, (hcalled r' hr').1, hi', hstatus r' hr'⟩
        · cases hs
  · obtain rfl := Option.some.inj hs
    exact h.drop j

/-- A response arrives on the read path. -/
theorem receivedOne (h : Matching c s) (hfew : s.calls ≤ intValues) {req : MsgReq B}
    {contacted : List Nat} {j : Nat} {r : Reply R} (hpc : s.pc = .receiveOne req contacted)
    (hj : s.responses[j]? = some r) :
    Matching c ({ s with responses := s.responses.eraseIdx j }.receivedOne req contacted r) := by
  have hmem := List.mem_of_getElem? hj
  unfold Remote.receivedOne
  split
  · rename_i hsn
    have hcall := h.call_of_sn hfew (by rw [hpc]; rfl) hmem hsn
    obtain ⟨-, -, hcur⟩ := h.current req (by rw [hpc]; rfl)
    have hkey : r.key ∈ s.keys :=
      List.mem_append_right _ (List.mem_append_left _ (List.mem_map_of_mem hmem))
    have hsent := hcur _ hkey hcall
    rw [Remote.sentTo, hpc] at hsent
    have hrange := h.inRange
    rw [InRange, hpc] at hrange
    refine (h.dropResponse j).succeed ⟨fun _ => ⟨hrange, r, (h.responses r hmem).2, ?_, hsent,
      rfl⟩, fun hall => Bool.noConfusion hall⟩
    change r.call = s.calls - 1
    omega
  · exact h.drop j

/-- One step, as long as the serial numbers have not come round. -/
theorem step {a : Remote.Act B R} (h : Matching c s) (hfew : s.calls ≤ intValues)
    (hs : Remote.step c s a = some s') : Matching c s' := by
  cases a with
  | call type body all =>
      simp only [Remote.step] at hs
      split at hs
      · rename_i hpc
        obtain rfl := Option.some.inj hs
        exact h.remoteCall hpc type body all
      · cases hs
  | send =>
      simp only [Remote.step] at hs
      split at hs
      · rename_i req i hpc
        obtain rfl := Option.some.inj hs
        exact h.sendNextAll hpc
      · rename_i req k hpc
        obtain rfl := Option.some.inj hs
        exact h.sendNextSome hpc
      · cases hs
  | fail =>
      simp only [Remote.step] at hs
      split at hs
      · cases hs
      · obtain rfl := Option.some.inj hs
        exact ⟨h.repc .idle rfl s.rrIndex, fun req hreq => (by cases hreq), trivial⟩
  | receive j =>
      simp only [Remote.step] at hs
      split at hs
      · rename_i req responses r hpc hj
        exact h.receivedAll hfew hpc hj hs
      · rename_i req contacted r hpc hj
        obtain rfl := Option.some.inj hs
        exact h.receivedOne hfew hpc hj
      · cases hs
  | answer j type status body =>
      simp only [Remote.step] at hs
      split at hs
      · rename_i d hj
        obtain rfl := Option.some.inj hs
        obtain ⟨htraffic, hperm⟩ := h.answer hj (r := ⟨d.server, d.call, ⟨type, d.req.sn,
          status, body⟩⟩) rfl rfl
        refine ⟨htraffic, fun req hreq => ?_, h.inRange⟩
        obtain ⟨hcalls, hsn, hcur⟩ := h.current req hreq
        exact ⟨hcalls, hsn, fun key hk hc => hcur key (hperm.mem_iff.mp hk) hc⟩
      · cases hs

end Matching

/-! ### The number of calls -/

theorem sendAllLoop_calls (c : Servers) (s : Remote B R) (req : MsgReq B) (i : Nat) :
    (s.sendAllLoop c req i).calls = s.calls := by
  unfold Remote.sendAllLoop
  split <;> rfl

theorem sendSomeLoop_calls (c : Servers) (s : Remote B R) (req : MsgReq B) (k : Nat) :
    (s.sendSomeLoop c req k).calls = s.calls := by
  unfold Remote.sendSomeLoop
  split <;> rfl

theorem receivedAll_calls {c : Servers} {s s' : Remote B R} {req : MsgReq B}
    {responses : List (Reply R)} {r : Reply R}
    (hs : s.receivedAll c req responses r = some s') : s'.calls = s.calls := by
  unfold Remote.receivedAll at hs
  split at hs
  · split at hs
    · cases hs
    · split at hs
      · rw [← Option.some.inj hs]
      · split at hs
        · rw [← Option.some.inj hs]
          rfl
        · cases hs
  · rw [← Option.some.inj hs]

/-- Calls are only ever added. -/
theorem calls_step {c : Servers} {s s' : Remote B R} {a : Remote.Act B R}
    (hs : Remote.step c s a = some s') : s.calls ≤ s'.calls := by
  cases a with
  | call type body all =>
      simp only [Remote.step] at hs
      split at hs
      · rw [← Option.some.inj hs]
        unfold Remote.remoteCall
        dsimp only
        split
        · exact Nat.le_succ _
        · split
          · rw [sendAllLoop_calls]; exact Nat.le_succ _
          · rw [sendSomeLoop_calls]; exact Nat.le_succ _
      · cases hs
  | send =>
      simp only [Remote.step] at hs
      split at hs
      · rw [← Option.some.inj hs, sendAllLoop_calls]; exact Nat.le_refl _
      · rw [← Option.some.inj hs, sendSomeLoop_calls]; exact Nat.le_refl _
      · cases hs
  | fail =>
      simp only [Remote.step] at hs
      split at hs
      · cases hs
      · rw [← Option.some.inj hs]
  | receive j =>
      simp only [Remote.step] at hs
      split at hs
      · rw [receivedAll_calls hs]
      · rw [← Option.some.inj hs]
        unfold Remote.receivedOne
        split <;> exact Nat.le_refl _
      · cases hs
  | answer j type status body =>
      simp only [Remote.step] at hs
      split at hs
      · rw [← Option.some.inj hs]
      · cases hs

/--
A call that succeeds returns its own answer, as long as fewer than 2^32 calls were made.

A read-class call returns a response that one of the servers it contacted produced for
this request.  A write-class call returns after every server produced a response to this
request, all of them with the status returned, and what it returns is one of them.
-/
theorem remote_call_own_answer {c : Servers} {s : Remote B R}
    (h : Reaches (Remote.step c) Remote.init s) (hfew : s.calls < intValues) :
    ∀ o ∈ s.returned,
      (o.toAllServers = false →
        (o.contacted.length = c.readers ∧ o.contacted.Nodup ∧
          ∀ i ∈ o.contacted, i < c.numServers) ∧
        ∃ r ∈ s.produced, r.call = o.call ∧ r.server ∈ o.contacted ∧ r.res = o.res) ∧
      (o.toAllServers = true →
        (∀ i, i < c.numServers →
          ∃ r ∈ s.produced, r.call = o.call ∧ r.server = i ∧ r.res.status = o.res.status) ∧
        ∃ r ∈ s.produced, r.call = o.call ∧ r.res = o.res) := by
  obtain ⟨tr, htr⟩ := h
  have hinv : s.calls ≤ intValues → Matching c s :=
    htr.invariant (fun s => s.calls ≤ intValues → Matching c s) (fun _ => Matching.init)
      fun s a s' h hs hle =>
        have hle' := (calls_step hs).trans hle
        (h hle').step hle' hs
  intro o ho
  have hown := (hinv (Nat.le_of_lt hfew)).returned o ho
  exact ⟨hown.read, hown.write⟩

/--
Two servers: a read-class call contacts the first and gives up; the write-class call after
it is answered by both, and drops the answer left over from the first call.
-/
theorem remote_call_own_answer_leftover :
    ∃ s : Remote Unit Nat, (s.calls = 2 ∧ s.returned.map (fun o => o.res.body) = [31]) ∧
      ∀ o ∈ s.returned, o.toAllServers = true →
        ∃ r ∈ s.produced, r.call = o.call ∧ r.res = o.res := by
  have hrun : (runActs (Remote.step ⟨2, 1, by decide⟩) (Remote.init : Remote Unit Nat)
      [.call 3 () false, .send, .fail, .answer 0 3 0 30, .call 4 () true, .send, .send,
        .answer 1 4 0 31, .answer 0 4 0 32, .receive 0, .receive 0, .receive 0]).map
      (fun s => (s.calls, s.returned.map (fun o => o.res.body))) = some (2, [31]) := by
    decide
  obtain ⟨s, hs, hfacts⟩ := Option.map_eq_some_iff.mp hrun
  simp only [Prod.mk.injEq] at hfacts
  obtain ⟨hcalls, hbodies⟩ := hfacts
  refine ⟨s, ⟨hcalls, hbodies⟩, fun o ho hall => ?_⟩
  have hfew : s.calls < intValues := by rw [hcalls]; decide
  exact ((remote_call_own_answer (reaches_runActs _ hs) hfew o ho).2 hall).2

end Sthreads.Client
