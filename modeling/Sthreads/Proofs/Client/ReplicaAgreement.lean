/-
When replicas agree.

A client goes on only when all servers have executed its request with the same status, so when
no call is under way the status of every request is the same everywhere (`ClientOk`).  What
a server holds then follows from what it has executed (`Explains`).  Nothing makes the order
of this the same on all servers.
-/
import Sthreads.Lib.Run
import Sthreads.Proofs.Client.Executing
import Sthreads.Proofs.Snfs.ByteArrays

namespace Sthreads.Client

open Snfs Prog

/-! ### Clients -/

/-- The same arguments, and the same status. -/
def Executed.Same (e e' : Executed) : Prop := e.args = e'.args ∧ e.status = e'.status

/-- A client's first calls are the same everywhere. -/
def Settled (i : Fin 2) (ex : Nat → List Executed) (n : Nat) : Prop :=
  ∀ r r' e e', e ∈ ex r → e' ∈ ex r' → e.client = i → e'.client = i → e.call = e'.call →
    e.call < n → e.Same e'

/-- Only calls that were made have been executed. -/
def Made (i : Fin 2) (ex : Nat → List Executed) (n : Nat) : Prop :=
  ∀ r e, e ∈ ex r → e.client = i → e.call < n

/-- A call is under way: `n` requests were sent, and `got` are the responses that arrived. -/
structure Busy (i : Fin 2) (cl : Remote (Page 1036) (Page 1540)) (ex : Nat → List Executed)
    (req : Req) (got : List (Reply (Page 1540))) (n : Nat) : Prop where
  calls : 0 < cl.calls
  type : req.type = 4 ∨ req.type = 5 ∨ req.type = 6
  count : cl.requests.length + cl.responses.length + got.length = n
  requests : ∀ d ∈ cl.requests, d.call + 1 = cl.calls ∧ d.req = req
  responses : ∀ r ∈ cl.responses, r.res.sn = req.sn
  current : ∀ r e, e ∈ ex r → e.client = i → e.call + 1 = cl.calls →
    Args.ofReq req = some e.args ∧ ∃ x ∈ cl.responses ++ got, x.res.status = e.status
  settled : Settled i ex (cl.calls - 1)

/-- A client of the replicas. -/
structure ClientOk (c : Servers) (i : Fin 2) (cl : Remote (Page 1036) (Page 1540))
    (ex : Nat → List Executed) : Prop where
  made : Made i ex cl.calls
  pc : (cl.pc = .idle ∧ cl.requests = [] ∧ cl.responses = [] ∧ Settled i ex cl.calls) ∨
    ∃ req got n, Busy i cl ex req got n ∧
      ((cl.pc = .sendAll req n ∧ got = [] ∧ n < c.numServers) ∨
        (cl.pc = .receiveAll req got ∧ n = c.numServers ∧ got.length < c.numServers))

section

variable {c : Servers} {i : Fin 2} {cl cl' : Remote (Page 1036) (Page 1540)}
  {ex ex' : Nat → List Executed}

theorem ClientOk.init : ClientOk c i .init fun _ => [] :=
  ⟨nofun, Or.inl ⟨rfl, rfl, rfl, nofun⟩⟩

/-- What the other client's requests do does not matter. -/
theorem ClientOk.mono (h : ClientOk c i cl ex)
    (hex : ∀ r e, e ∈ ex' r → e.client = i → e ∈ ex r) : ClientOk c i cl ex' := by
  have hsettled : ∀ n, Settled i ex n → Settled i ex' n :=
    fun n hs r r' e e' he he' hi hi' => hs r r' e e' (hex r e he hi) (hex r' e' he' hi') hi hi'
  refine ⟨fun r e he hi => h.made r e (hex r e he hi) hi, ?_⟩
  rcases h.pc with ⟨hpc, hreq, hres, hs⟩ | ⟨req, got, n, hb, hpc⟩
  · exact Or.inl ⟨hpc, hreq, hres, hsettled _ hs⟩
  · exact Or.inr ⟨req, got, n, ⟨hb.calls, hb.type, hb.count, hb.requests, hb.responses,
      fun r e he hi => hb.current r e (hex r e he hi) hi, hsettled _ hb.settled⟩, hpc⟩

theorem ClientOk.call (h : ClientOk c i cl ex) (hpc : cl.pc = .idle) {type : Int}
    (htype : type = 4 ∨ type = 5 ∨ type = 6) (body : Page 1036) :
    ClientOk c i (cl.remoteCall c type body true) ex := by
  obtain ⟨hreq, hres, hs⟩ : cl.requests = [] ∧ cl.responses = [] ∧ Settled i ex cl.calls := by
    rcases h.pc with ⟨-, hrest⟩ | ⟨req, got, n, -, ⟨hpc', -⟩ | ⟨hpc', -⟩⟩
    · exact hrest
    · rw [hpc] at hpc'
      cases hpc'
    · rw [hpc] at hpc'
      cases hpc'
  have hmade : Made i ex (cl.calls + 1) := fun r e he hi => Nat.lt_succ_of_lt (h.made r e he hi)
  rw [Remote.remoteCall]
  split
  · exact ⟨hmade, Or.inl ⟨hpc, hreq, hres,
      fun r r' e e' he he' hi hi' hcall _ => hs r r' e e' he he' hi hi' hcall (h.made r e he hi)⟩⟩
  · rename_i hn
    rw [if_pos rfl, Remote.sendAllLoop, if_pos (by omega)]
    refine ⟨hmade, Or.inr ⟨_, [], 0, ⟨Nat.succ_pos _, htype, ?_, ?_, ?_, ?_, hs⟩,
      Or.inl ⟨rfl, rfl, by omega⟩⟩⟩
    · change cl.requests.length + cl.responses.length + 0 = 0
      rw [hreq, hres]
      rfl
    · intro d hd
      change d ∈ cl.requests at hd
      rw [hreq] at hd
      cases hd
    · intro r hr
      change r ∈ cl.responses at hr
      rw [hres] at hr
      cases hr
    · intro r e he hi hcall
      have := h.made r e he hi
      change e.call + 1 = cl.calls + 1 at hcall
      omega

theorem ClientOk.send (h : ClientOk c i cl ex) {req : Req} {k : Nat}
    (hpc : cl.pc = .sendAll req k) :
    ClientOk c i ((cl.sendTo req k).sendAllLoop c req (k + 1)) ex := by
  obtain ⟨hb, hk⟩ : Busy i cl ex req [] k ∧ k < c.numServers := by
    rcases h.pc with ⟨hpc', -⟩ | ⟨req', got, n, hb, ⟨hpc', rfl, hn⟩ | ⟨hpc', -⟩⟩
    · rw [hpc] at hpc'
      cases hpc'
    · rw [hpc, CallPc.sendAll.injEq] at hpc'
      obtain ⟨rfl, rfl⟩ := hpc'
      exact ⟨hb, hn⟩
    · rw [hpc] at hpc'
      cases hpc'
  have hcalls := hb.calls
  have hcount := hb.count
  have hsent : ∀ pc, Busy i { cl.sendTo req k with pc := pc } ex req [] (k + 1) := by
    intro pc
    refine ⟨hb.calls, hb.type, ?_, ?_, hb.responses, hb.current, hb.settled⟩
    · rw [Remote.sendTo, List.length_append, List.length_singleton]
      dsimp only
      omega
    · intro d hd
      rcases List.mem_append.mp hd with hd | hd
      · exact hb.requests d hd
      · rw [List.mem_singleton.mp hd]
        exact ⟨by change cl.calls - 1 + 1 = cl.calls; omega, rfl⟩
  rw [Remote.sendAllLoop]
  split
  · rename_i hlt
    exact ⟨h.made, Or.inr ⟨req, [], k + 1, hsent _, Or.inl ⟨rfl, rfl, hlt⟩⟩⟩
  · rename_i hge
    exact ⟨h.made, Or.inr ⟨req, [], k + 1, hsent _, Or.inr ⟨rfl, by omega, by
      rw [List.length_nil]
      omega⟩⟩⟩

theorem ClientOk.receive (h : ClientOk c i cl ex) {req : Req} {got : List (Reply (Page 1540))}
    (hpc : cl.pc = .receiveAll req got) {j : Nat} {x : Reply (Page 1540)}
    (hx : cl.responses[j]? = some x)
    (hs : { cl with responses := cl.responses.eraseIdx j }.receivedAll c req got x = some cl') :
    ClientOk c i cl' ex := by
  obtain ⟨hb, hgot⟩ : Busy i cl ex req got c.numServers ∧ got.length < c.numServers := by
    rcases h.pc with ⟨hpc', -⟩ | ⟨req', got', n, hb, ⟨hpc', -⟩ | ⟨hpc', rfl, hn⟩⟩
    · rw [hpc] at hpc'
      cases hpc'
    · rw [hpc] at hpc'
      cases hpc'
    · rw [hpc, CallPc.receiveAll.injEq] at hpc'
      obtain ⟨rfl, rfl⟩ := hpc'
      exact ⟨hb, hn⟩
  have hcalls := hb.calls
  have hcount := hb.count
  have hmem := List.mem_of_getElem? hx
  have hlen := List.length_eraseIdx_of_lt (List.getElem?_eq_some_iff.mp hx).1
  have hpos := List.length_pos_of_mem hmem
  -- what has arrived is what arrived before and this
  have hcurrent : ∀ r e, e ∈ ex r → e.client = i → e.call + 1 = cl.calls →
      Args.ofReq req = some e.args ∧
        ∃ y ∈ cl.responses.eraseIdx j ++ (got ++ [x]), y.res.status = e.status := by
    intro r e he hi hcall
    obtain ⟨hargs, y, hy, hstatus⟩ := hb.current r e he hi hcall
    refine ⟨hargs, y, ?_, hstatus⟩
    rcases List.mem_append.mp hy with hy | hy
    · rcases (List.mem_iff_getElem?.mp hy) with ⟨k, hk⟩
      by_cases hkj : k = j
      · subst hkj
        obtain rfl := Option.some.inj (hx.symm.trans hk)
        simp
      · exact List.mem_append_left _ (List.mem_eraseIdx_iff_getElem?.mpr ⟨k, hkj, hk⟩)
    · simp [hy]
  rw [Remote.receivedAll, if_pos (hb.responses x hmem)] at hs
  cases hall : got ++ [x] with
  | nil => simp at hall
  | cons first rest =>
      have hsum : (first :: rest).length = got.length + 1 := by rw [← hall]; simp
      rw [hall] at hs hcurrent
      dsimp only at hs
      split at hs
      · rename_i hlt
        obtain rfl := Option.some.inj hs
        refine ⟨h.made, Or.inr ⟨req, first :: rest, c.numServers, ⟨hb.calls, hb.type, ?_,
          hb.requests, fun r hr => hb.responses r (List.mem_of_mem_eraseIdx hr), hcurrent,
          hb.settled⟩, Or.inr ⟨rfl, rfl, hlt⟩⟩⟩
        dsimp only
        omega
      · rename_i hge
        split at hs
        · rename_i hsame
          obtain rfl := Option.some.inj hs
          have hnone : cl.requests = [] ∧ cl.responses.eraseIdx j = [] := by
            constructor <;> apply List.eq_nil_of_length_eq_zero <;> omega
          refine ⟨h.made, Or.inl ⟨rfl, hnone.1, hnone.2, ?_⟩⟩
          -- every response has the status of the first
          have hstatus : ∀ r e, e ∈ ex r → e.client = i → e.call + 1 = cl.calls →
              Args.ofReq req = some e.args ∧ e.status = first.res.status := by
            intro r e he hi hcall
            obtain ⟨hargs, y, hy, hy'⟩ := hcurrent r e he hi hcall
            rw [hnone.2, List.nil_append] at hy
            refine ⟨hargs, ?_⟩
            rw [← hy']
            rcases List.mem_cons.mp hy with rfl | hy
            · rfl
            · exact beq_iff_eq.mp (List.all_eq_true.mp hsame y hy)
          intro r r' e e' he he' hi hi' hcall hlt
          by_cases hlast : e.call + 1 = cl.calls
          · obtain ⟨hargs, hst⟩ := hstatus r e he hi hlast
            obtain ⟨hargs', hst'⟩ := hstatus r' e' he' hi' (hcall ▸ hlast)
            exact ⟨Option.some.inj (hargs.symm.trans hargs'), hst.trans hst'.symm⟩
          · change e.call < cl.calls at hlt
            exact hb.settled r r' e e' he he' hi hi' hcall (by omega)
        · cases hs

theorem ClientOk.execute (h : ClientOk c i cl ex) {j : Nat} {d : Datagram (Page 1036)}
    (hd : cl.requests[j]? = some d) {type status : Int} {body : Page 1540}
    (hex : ∀ r e, e ∈ ex' r → e ∈ ex r ∨ e.client = i ∧ e.call = d.call ∧
      Args.ofReq d.req = some e.args ∧ e.status = status) :
    ClientOk c i { cl with
      requests := cl.requests.eraseIdx j
      responses := cl.responses ++ [⟨d.server, d.call, ⟨type, d.req.sn, status, body⟩⟩]
      produced := cl.produced ++ [⟨d.server, d.call, ⟨type, d.req.sn, status, body⟩⟩] } ex' := by
  have hmem := List.mem_of_getElem? hd
  obtain ⟨req, got, n, hb, hpc⟩ : ∃ req got n, Busy i cl ex req got n ∧
      ((cl.pc = .sendAll req n ∧ got = [] ∧ n < c.numServers) ∨
        (cl.pc = .receiveAll req got ∧ n = c.numServers ∧ got.length < c.numServers)) := by
    rcases h.pc with ⟨-, hreq, -⟩ | hbusy
    · rw [hreq] at hmem
      cases hmem
    · exact hbusy
  obtain ⟨hcall, hreq⟩ := hb.requests d hmem
  have hcount := hb.count
  have hlen := List.length_eraseIdx_of_lt (List.getElem?_eq_some_iff.mp hd).1
  have hpos := List.length_pos_of_mem hmem
  refine ⟨fun r e he hi => ?_, Or.inr ⟨req, got, n, ⟨hb.calls, hb.type, ?_, ?_, ?_, ?_, ?_⟩, hpc⟩⟩
  · rcases hex r e he with he | ⟨-, he, -⟩
    · exact h.made r e he hi
    · change e.call < cl.calls
      omega
  · dsimp only
    rw [List.length_append, List.length_singleton]
    omega
  · exact fun d' hd' => hb.requests d' (List.mem_of_mem_eraseIdx hd')
  · intro r hr
    rcases List.mem_append.mp hr with hr | hr
    · exact hb.responses r hr
    · rw [List.mem_singleton.mp hr, hreq]
  · intro r e he hi hecall
    rcases hex r e he with he | ⟨-, -, hargs, hstatus⟩
    · obtain ⟨hargs, x, hx, hx'⟩ := hb.current r e he hi hecall
      refine ⟨hargs, x, ?_, hx'⟩
      rcases List.mem_append.mp hx with hx | hx
      · exact List.mem_append_left _ (List.mem_append_left _ hx)
      · exact List.mem_append_right _ hx
    · exact ⟨hreq ▸ hargs, ⟨d.server, d.call, ⟨type, d.req.sn, status, body⟩⟩, by simp,
        hstatus.symm⟩
  · have hold : ∀ r e, e ∈ ex' r → e.call < cl.calls - 1 → e ∈ ex r := by
      intro r e he hlt
      rcases hex r e he with he | ⟨-, hcall', -⟩
      · exact he
      · omega
    intro r r' e e' he he' hi hi' hsame hlt
    change e.call < cl.calls - 1 at hlt
    exact hb.settled r r' e e' (hold r e he hlt) (hold r' e' he' (hsame ▸ hlt)) hi hi' hsame hlt

end

/-! ### The replicas -/

section

variable {c : Servers} {numBlocks : Nat} {s s' : Replicas}

/-- Clients and servers. -/
structure Replicas.Ok (c : Servers) (numBlocks : Nat) (s : Replicas) : Prop where
  clients : ∀ i, ClientOk c i (s.clients i) s.executed
  servers : ∀ r, ∃ t, IsTree CachedRel numBlocks (s.servers r) t ∧ Explains t (s.executed r)

theorem snfsInit_isTree (hn : 10 ≤ numBlocks) {readings : Nat → Int} {fs : Fs}
    (h : snfsInit numBlocks readings = .ok (.up fs)) :
    ∃ free, IsTree CachedRel numBlocks fs (.init free) := by
  obtain ⟨fs₁, hnew, h⟩ := except_bind_ok h
  obtain ⟨fs₂, hformat, h⟩ := except_bind_ok h
  obtain rfl := ServerState.up.inj (Except.ok.inj h)
  exact isTree_format hn hnew hformat

theorem Replicas.Ok.client (h : s.Ok c numBlocks) {i : Fin 2}
    {a : Remote.Act (Page 1036) (Page 1540)}
    (hok : ∀ cl, Remote.step c (s.clients i) a = some cl → ClientOk c i cl s.executed)
    (hs : s.client c i a = some s') : s'.Ok c numBlocks := by
  obtain ⟨cl, hstep, rfl⟩ := Option.map_eq_some_iff.mp hs
  refine ⟨fun i' => ?_, h.servers⟩
  dsimp only
  by_cases hi : i' = i
  · subst hi
    rw [Function.update_self]
    exact hok cl hstep
  · rw [Function.update_of_ne hi]
    exact h.clients i'

theorem update_type {a : ApiCall} {req : Req} (h : Replicas.update a = some req) :
    req.type = 4 ∨ req.type = 5 ∨ req.type = 6 := by
  cases a with
  | write fhandle offset count buffer => exact Or.inl (Option.some.inj h ▸ rfl)
  | create dir name => exact Or.inr (Or.inl (Option.some.inj h ▸ rfl))
  | mkdir dir name => exact Or.inr (Or.inr (Option.some.inj h ▸ rfl))
  | _ => cases h

/-- A client calls, sends or receives. -/
theorem ClientOk.step {i : Fin 2} {cl cl' : Remote (Page 1036) (Page 1540)}
    {ex : Nat → List Executed} (h : ClientOk c i cl ex) {a : Remote.Act (Page 1036) (Page 1540)}
    (ha : (∃ type body, (type = 4 ∨ type = 5 ∨ type = 6) ∧ a = .call type body true) ∨
      a = .send ∨ ∃ j, a = .receive j)
    (hs : Remote.step c cl a = some cl') : ClientOk c i cl' ex := by
  have hall : (∀ req k, cl.pc ≠ .sendSome req k) ∧
      ∀ req contacted, cl.pc ≠ .receiveOne req contacted := by
    rcases h.pc with ⟨hpc, -⟩ | ⟨req, got, n, -, ⟨hpc, -⟩ | ⟨hpc, -⟩⟩
    all_goals
      rw [hpc]
      exact ⟨nofun, nofun⟩
  rcases ha with ⟨type, body, htype, rfl⟩ | rfl | ⟨j, rfl⟩
  · rw [Remote.step] at hs
    split at hs
    · rename_i hpc
      exact Option.some.inj hs ▸ h.call hpc htype body
    · cases hs
  · rw [Remote.step] at hs
    split at hs
    · rename_i req k hpc
      exact Option.some.inj hs ▸ h.send hpc
    · rename_i req k hpc
      exact absurd hpc (hall.1 req k)
    · cases hs
  · rw [Remote.step] at hs
    split at hs
    · rename_i req got x hpc hx
      exact h.receive hpc hx hs
    · rename_i req contacted x hpc hx
      exact absurd hpc (hall.2 req contacted)
    · cases hs

/-- The request that a server executes changes the state. -/
theorem ClientOk.request_type {i : Fin 2} {cl : Remote (Page 1036) (Page 1540)}
    {ex : Nat → List Executed} (h : ClientOk c i cl ex) {d : Datagram (Page 1036)}
    (hd : d ∈ cl.requests) : d.req.type = 4 ∨ d.req.type = 5 ∨ d.req.type = 6 := by
  rcases h.pc with ⟨-, hreq, -⟩ | ⟨req, got, n, hb, -⟩
  · rw [hreq] at hd
    cases hd
  · rw [(hb.requests d hd).2]
    exact hb.type

/-- A server executes a request. -/
theorem Replicas.Ok.execute (h : s.Ok c numBlocks) {i : Fin 2} {j : Nat} {stack : Stack}
    (hs : s.step c (.execute i j stack) = some s') : s'.Ok c numBlocks := by
  rw [Replicas.step] at hs
  cases hd : (s.clients i).requests[j]? with
  | none =>
      rw [hd] at hs
      cases hs
  | some d =>
      rw [hd] at hs
      dsimp only at hs
      split at hs
      · rename_i a res ressz fs' ha hrun
        obtain ⟨t, ht, hexplains⟩ := h.servers d.server
        obtain ⟨r, t', hans, ht', hstatus⟩ := serve_update ht
          ((h.clients i).request_type (List.mem_of_getElem? hd)) ha hrun
        obtain ⟨cl, hstep, rfl⟩ := Option.map_eq_some_iff.mp hs
        rw [Remote.step, hd] at hstep
        obtain rfl := Option.some.inj hstep
        -- the others' requests that were executed are the same
        have hex : ∀ r e, e ∈ Function.update s.executed d.server
            (s.executed d.server ++ [⟨i, d.call, a, res.status⟩]) r →
            e ∈ s.executed r ∨ e.client = i ∧ e.call = d.call ∧
              Args.ofReq d.req = some e.args ∧ e.status = res.status := by
          intro r e he
          by_cases hr : r = d.server
          · subst hr
            rw [Function.update_self] at he
            rcases List.mem_append.mp he with he | he
            · exact Or.inl he
            · rw [List.mem_singleton.mp he]
              exact Or.inr ⟨rfl, rfl, ha, rfl⟩
          · rw [Function.update_of_ne hr] at he
            exact Or.inl he
        refine ⟨fun i' => ?_, fun r => ?_⟩
        · by_cases hi : i' = i
          · subst hi
            dsimp only
            rw [Function.update_self]
            exact (h.clients i').execute hd hex
          · dsimp only
            rw [Function.update_of_ne hi]
            refine (h.clients i').mono fun r e he hclient => ?_
            rcases hex r e he with he | ⟨he, -⟩
            · exact he
            · exact absurd (hclient.symm.trans he) hi
        · by_cases hr : r = d.server
          · subst hr
            dsimp only
            rw [Function.update_self, Function.update_self, hstatus]
            exact ⟨t', ht', hexplains.handler hans i d.call⟩
          · dsimp only
            rw [Function.update_of_ne hr, Function.update_of_ne hr]
            exact h.servers r
      · cases hs

theorem Replicas.Ok.step (h : s.Ok c numBlocks) {a : Replicas.Act} (hs : s.step c a = some s') :
    s'.Ok c numBlocks := by
  cases a with
  | call i a =>
      rw [Replicas.step] at hs
      split at hs
      · cases hs
      · rename_i req hreq
        exact h.client (fun cl hcl => (h.clients i).step
          (Or.inl ⟨req.type, req.body, update_type hreq, rfl⟩) hcl) hs
  | send i => exact h.client (fun cl hcl => (h.clients i).step (Or.inr (Or.inl rfl)) hcl) hs
  | receive i j =>
      exact h.client (fun cl hcl => (h.clients i).step (Or.inr (Or.inr ⟨j, rfl⟩)) hcl) hs
  | execute i j stack => exact h.execute hs

theorem Replicas.Ok.init (hn : 10 ≤ numBlocks) {servers : Nat → Fs} {readings : Nat → Nat → Int}
    (hinit : ∀ r, snfsInit numBlocks (readings r) = .ok (.up (servers r))) :
    (Replicas.init servers).Ok c numBlocks := by
  refine ⟨fun i => ClientOk.init, fun r => ?_⟩
  obtain ⟨free, ht⟩ := snfsInit_isTree hn (hinit r)
  exact ⟨_, ht, Explains.init free⟩

/-! ### Agreement -/

/-- The same inodes are used, paths lead to the same inodes, and what is in them is the same. -/
structure SameContents (fs fs' : Fs) : Prop where
  used : ∀ id, fs'.Used id ↔ fs.Used id
  leads : ∀ path id, fs'.Leads path id ↔ fs.Leads path id
  objects : ∀ id, fs.Used id → SameObject fs fs' id

theorem sameContents_of_nodes {fs fs' : Fs} {t t' : Tree} (ht : IsTree CachedRel numBlocks fs t)
    (ht' : IsTree CachedRel numBlocks fs' t') (hnodes : t.nodes = t'.nodes) :
    SameContents fs fs' := by
  have hwf : t.WF ∧ t'.WF := by
    obtain ⟨A, -, hrep, -, -⟩ := ht
    obtain ⟨A', -, hrep', -, -⟩ := ht'
    exact ⟨hrep.wf, hrep'.wf⟩
  have hshows := isTree_shows ht
  have hshows' := isTree_shows ht'
  refine ⟨fun id => by rw [hshows.used, hshows'.used, hnodes], fun path id => ?_,
    fun id hused => hshows.sameObject hshows' hused (by rw [Snfs.Tree.node, Snfs.Tree.node, hnodes])⟩
  refine and_congr_right fun _ => ?_
  cases htokens : tokens path with
  | nil => rfl
  | cons w ws =>
      have hwalk := hshows.walk hwf.1 (w :: ws) ⟨Nat.le_refl 1, hwf.1.length_pos⟩ none id
      have hwalk' := hshows'.walk hwf.2 (w :: ws) ⟨Nat.le_refl 1, hwf.2.length_pos⟩ none id
      rw [walk_congr hnodes, hwalk'] at hwalk
      simpa using hwalk

/-- Lists with the same requests in the same order, and the same statuses. -/
theorem filterMap_congr {α : Type} {g : Executed → Option α} {L L' : List Executed}
    (hreq : L.map Executed.request = L'.map Executed.request)
    (hg : ∀ e ∈ L, ∀ e' ∈ L', e.request = e'.request → g e = g e') :
    L.filterMap g = L'.filterMap g := by
  induction L generalizing L' with
  | nil => rw [List.map_eq_nil_iff.mp hreq.symm]
  | cons e L ih =>
      cases L' with
      | nil => cases hreq
      | cons e' L' =>
          obtain ⟨he, hrest⟩ := List.cons.inj hreq
          have hee := hg e List.mem_cons_self e' List.mem_cons_self he
          have htail := ih hrest fun x hx x' hx' =>
            hg x (List.mem_cons_of_mem _ hx) x' (List.mem_cons_of_mem _ hx')
          rw [List.filterMap_cons, List.filterMap_cons, hee, htail]

/-- The same, of those that are of a kind. -/
theorem filterMap_congr_of_filter {α : Type} {g : Executed → Option α} {p : Executed → Bool}
    {L L' : List Executed} (hp : ∀ e, p e = false → g e = none)
    (hreq : (L.filter p).map Executed.request = (L'.filter p).map Executed.request)
    (hg : ∀ e ∈ L, ∀ e' ∈ L', e.request = e'.request → g e = g e') :
    L.filterMap g = L'.filterMap g := by
  have hfilter : ∀ l : List Executed, l.filterMap g = (l.filter p).filterMap g := by
    intro l
    rw [List.filterMap_filter]
    refine List.filterMap_congr fun e _ => ?_
    by_cases he : p e = true
    · rw [if_pos he]
    · rw [if_neg he, hp e (by simpa using he)]
  rw [hfilter L, hfilter L']
  exact filterMap_congr hreq fun e he e' he' =>
    hg e (List.mem_of_mem_filter he) e' (List.mem_of_mem_filter he')

/-- When no call is under way a request has the same status everywhere. -/
theorem Replicas.Ok.same (h : s.Ok c numBlocks) (hquiet : s.Quiet) {r r' : Nat} {e e' : Executed}
    (he : e ∈ s.executed r) (he' : e' ∈ s.executed r') (hreq : e.request = e'.request) :
    e.Same e' := by
  obtain ⟨hclient, hcall⟩ := Prod.mk.inj hreq
  have hok := h.clients e.client
  rcases hok.pc with ⟨-, -, -, hsettled⟩ | ⟨req, got, n, -, ⟨hpc, -⟩ | ⟨hpc, -⟩⟩
  · exact hsettled r r' e e' he he' rfl hclient.symm hcall (hok.made r e he rfl)
  · rw [hquiet] at hpc
    cases hpc
  · rw [hquiet] at hpc
    cases hpc

theorem creation?_congr {e e' : Executed} (h : e.Same e') : e.creation? = e'.creation? := by
  rw [Executed.creation?, Executed.creation?, h.1, h.2]

theorem write?_congr {e e' : Executed} (h : e.Same e') (file : Nat) :
    e.write? file = e'.write? file := by
  rw [Executed.write?, Executed.write?, h.1, h.2]

theorem creation?_none {e : Executed} (h : e.creates = false) : e.creation? = none := by
  obtain ⟨client, call, args, status⟩ := e
  rw [Executed.creation?]
  split
  · cases args with
    | create dir name => cases h
    | mkdir dir f => cases h
    | _ => rfl
  · rfl

theorem write?_none {e : Executed} {file : Nat} (h : e.writesTo file = false) :
    e.write? file = none := by
  obtain ⟨client, call, args, status⟩ := e
  rw [Executed.write?]
  split
  · cases args with
    | write f offset count data =>
        have hne : (f == file) = false := h
        exact if_neg (by simpa using hne)
    | _ => rfl
  · rfl

end

/-- Two servers that have executed the same creations in the same order, and the same writes to
each file in the same order, hold the same once no call is under way. -/
theorem replicas_agree {numBlocks : Nat} (hn : 10 ≤ numBlocks) {c : Servers} {servers : Nat → Fs}
    {readings : Nat → Nat → Int}
    (hinit : ∀ r, snfsInit numBlocks (readings r) = .ok (.up (servers r)))
    {tr : List (Replicas × Replicas.Act)} {s : Replicas}
    (h : Run (Replicas.step c) (.init servers) tr s) (hquiet : s.Quiet) {r r' : Nat}
    (hcreations : SameCreations s r r') (hwrites : SameWrites s r r') :
    SameContents (s.servers r) (s.servers r') := by
  have hok := h.invariant (Replicas.Ok c numBlocks) (.init hn hinit) fun _ _ _ h hs => h.step hs
  obtain ⟨t, ht, hexplains⟩ := hok.servers r
  obtain ⟨t', ht', hexplains'⟩ := hok.servers r'
  refine sameContents_of_nodes ht ht' (hexplains.nodes_eq hexplains' ?_ fun file => ?_)
  · exact filterMap_congr_of_filter (fun _ => creation?_none) hcreations
      fun e he e' he' hreq => creation?_congr (hok.same hquiet he he' hreq)
  · exact filterMap_congr_of_filter (fun _ => write?_none) (hwrites file)
      fun e he e' he' hreq => write?_congr (hok.same hquiet he he' hreq) file

/-! ### Two servers -/

def twoServers : Servers := ⟨2, 1, by decide⟩

/-- The replicas after these steps, from new file systems. -/
def replicasAfter (acts : List Replicas.Act) : Option Replicas :=
  match snfsInit 12 fun i => 7 * i with
  | .ok (.up fs) => runActs (Replicas.step twoServers) (.init fun _ => fs) acts
  | _ => none

theorem replicasAfter_run {acts : List Replicas.Act} {s : Replicas}
    (h : replicasAfter acts = some s) :
    ∃ fs tr, snfsInit 12 (fun i => 7 * i) = .ok (.up fs) ∧
      Run (Replicas.step twoServers) (.init fun _ => fs) tr s := by
  unfold replicasAfter at h
  split at h
  · rename_i fs hinit
    obtain ⟨tr, htr⟩ := runActs_run acts Run.nil h
    exact ⟨fs, [] ++ tr, hinit, htr⟩
  · cases h

/-- Each client calls, and its requests are sent. -/
def callBoth (a b : ApiCall) : List Replicas.Act :=
  [.call 0 a, .call 1 b, .send 0, .send 0, .send 1, .send 1]

/-- All responses arrive. -/
def receiveBoth : List Replicas.Act := [.receive 0 0, .receive 0 0, .receive 1 0, .receive 1 0]

/-- A request in flight is executed. -/
def execute (i : Fin 2) (j : Nat) : Replicas.Act := .execute i j ⟨fun _ => 0, 0⟩

/-- Both servers execute the request of the first client first. -/
def inOrder : List Replicas.Act := [execute 0 0, execute 0 0, execute 1 0, execute 1 0]

/-- At the second server that of the second client is first. -/
def overtaking : List Replicas.Act := [execute 0 0, execute 1 1, execute 0 0, execute 1 0]

/-- A name of one letter. -/
def letter (c : UInt8) (hc : c ≠ 0) : CStr := ⟨[c], by simpa using hc⟩

/-- The files `a` and `b` are created in the root. -/
def createBoth : List Replicas.Act :=
  callBoth (.create 1 (letter 97 (by decide))) (.create 1 (letter 98 (by decide)))

/-- `A` and `B` are written to the first file. -/
def writeBoth : List Replicas.Act := callBoth (.write 2 0 1 fun _ => 65) (.write 2 0 1 fun _ => 66)

/-- Two clients create a file each. -/
theorem replicas_agree_two_files :
    ∃ s, replicasAfter (createBoth ++ inOrder ++ receiveBoth) = some s ∧ s.Quiet ∧
      (s.servers 0).Leads [47, 98] 3 ∧ SameContents (s.servers 0) (s.servers 1) := by
  have hfacts : (replicasAfter (createBoth ++ inOrder ++ receiveBoth)).map (fun s =>
      (decide s.Quiet, decide ((s.servers 0).Leads [47, 98] 3), decide (SameCreations s 0 1),
        (s.executed 0 ++ s.executed 1).all Executed.creates)) = some (true, true, true, true) := by
    decide +kernel
  obtain ⟨s, hs, hval⟩ := Option.map_eq_some_iff.mp hfacts
  simp only [Prod.mk.injEq, decide_eq_true_eq, List.all_append, Bool.and_eq_true,
    List.all_eq_true] at hval
  obtain ⟨hquiet, hleads, hcreations, hall, hall'⟩ := hval
  obtain ⟨fs, tr, hinit, hrun⟩ := replicasAfter_run hs
  refine ⟨s, hs, hquiet, hleads, replicas_agree (by decide) (fun _ => hinit) hrun hquiet hcreations
    fun file => ?_⟩
  -- nothing was written
  have hnone : ∀ L : List Executed, (∀ e ∈ L, e.creates = true) →
      L.filter (Executed.writesTo file) = [] := by
    intro L hL
    refine List.filter_eq_nil_iff.mpr fun e he hw => ?_
    obtain ⟨client, call, args, status⟩ := e
    have hc := hL _ he
    cases args <;> first | cases hw | cases hc
  rw [hnone _ hall, hnone _ hall']

/-- The requests of two clients that reach two servers in different orders leave them with different
inodes for a path, and with different bytes in a file. -/
theorem replicas_differ :
    (∃ s, replicasAfter (createBoth ++ overtaking ++ receiveBoth) = some s ∧ s.Quiet ∧
      (s.servers 0).Leads [47, 97] 2 ∧ ¬ (s.servers 1).Leads [47, 97] 2) ∧
    ∃ s, replicasAfter (createBoth ++ inOrder ++ receiveBoth ++ writeBoth ++ overtaking ++
        receiveBoth) = some s ∧ s.Quiet ∧ SameCreations s 0 1 ∧
      (s.servers 0).fileBytes 2 = [66] ∧ (s.servers 1).fileBytes 2 = [65] := by
  have hcreated : (replicasAfter (createBoth ++ overtaking ++ receiveBoth)).map (fun s =>
      (decide s.Quiet, decide ((s.servers 0).Leads [47, 97] 2),
        decide ((s.servers 1).Leads [47, 97] 2))) = some (true, true, false) := by
    decide +kernel
  have hwritten : (replicasAfter (createBoth ++ inOrder ++ receiveBoth ++ writeBoth ++ overtaking ++
      receiveBoth)).map (fun s => (decide s.Quiet, decide (SameCreations s 0 1),
        (s.servers 0).fileBytes 2, (s.servers 1).fileBytes 2)) = some (true, true, [66], [65]) := by
    decide +kernel
  obtain ⟨s, hs, hval⟩ := Option.map_eq_some_iff.mp hcreated
  obtain ⟨s', hs', hval'⟩ := Option.map_eq_some_iff.mp hwritten
  simp only [Prod.mk.injEq, decide_eq_true_eq, decide_eq_false_iff_not] at hval hval'
  exact ⟨⟨s, hs, hval⟩, s', hs', hval'⟩

end Sthreads.Client
