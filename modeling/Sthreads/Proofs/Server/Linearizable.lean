/-
The server is linearizable.

However its threads interleave, the requests are answered as by a file system that serves
them one at a time, each between the moment it is fetched and the moment its response is
sent.  This needs that the handlers that the lock admits together do not disturb each other
(`Snfs.ReadPool`), and that no listing takes more than one page.

The point of a request is the step at which its handler returns.  The file system of the
threads and the one that serves the requests one at a time differ in their caches, and are
the same tree whenever no handler that writes is on the way.  A handler that writes is
alone, so what is left of it ends as the whole of it does from the tree it has begun with.
-/
import Sthreads.Proofs.Server.SystemSteps
import Sthreads.Proofs.Snfs.ReadPool
import Sthreads.Proofs.Snfs.Requests

namespace Sthreads.Server

open Snfs (Fs View Tree IsTree CachedRel ReadThread Reads Page)

variable {K C : Type}

/-! ### The condition -/

/-- The condition on a step: a handler that goes on lists no directory of more than one page, and
is not disturbed by the others if it reads. -/
def System.Safe (s : System K C) : System.Act K C → Prop
  | .handle k => ∀ th, s.work k = .handling th →
      s.fs.OnePage th.args ∧ (th.args.IsRead → th.Undisturbed s.fs (s.strtokBy = some k))
  | _ => True

/-! ### Requests served alone -/

/-- A request of unknown type is answered as if it was served. -/
theorem serve_unknown {d : Req C (Page 1036)} (h : Snfs.Args.ofReq d.req = none)
    (hservice : findService d.req.type = none) (fs : Fs) (stack : Snfs.Stack) (res : Snfs.Res)
    (ressz : Nat) : Prog.run Fs.handler (Snfs.serve stack d.req) fs =
      .ok (Ring.response clearedRes d res ressz, fs) := by
  rw [Snfs.serve, h, Ring.response, hservice]
  rfl

/-- What a handler has returned is sent as it is when the request is served alone. -/
theorem serve_known {d : Req C (Page 1036)} {a : Snfs.Args} (h : Snfs.Args.ofReq d.req = some a)
    {e : Service} (hservice : findService d.req.type = some e) {fs fs' : Fs} {stack : Snfs.Stack}
    {r : Option Snfs.Results} (hrun : Prog.run Fs.handler (a.handler stack) fs = .ok (r, fs')) :
    Prog.run Fs.handler (Snfs.serve stack d.req) fs =
      .ok (Ring.response clearedRes d (Snfs.respond a r).1 (Snfs.respond a r).2, fs') := by
  rw [Snfs.serve, h, Ring.response, hservice]
  dsimp only
  rw [Prog.run_bind, hrun]
  rfl

/-- A handler that ends the process ends it when the request is served alone. -/
theorem serve_ends {req : Snfs.Req} {a : Snfs.Args} (h : Snfs.Args.ofReq req = some a) {fs : Fs}
    {stack : Snfs.Stack} {e : Snfs.Halt}
    (hrun : Prog.run Fs.handler (a.handler stack) fs = .error e) :
    Prog.run Fs.handler (Snfs.serve stack req) fs = .error e := by
  rw [Snfs.serve, h]
  dsimp only
  rw [Prog.run_bind, hrun]

/-- A handler that reads leaves the tree. -/
theorem handler_of_read {t : Tree} {stack : Snfs.Stack} {a : Snfs.Args} (h : a.IsRead) :
    t.handler stack a = (t.answer stack a).map fun r => (r, t) := by
  cases a with
  | write file offset count data => exact h.elim
  | create dir name => exact h.elim
  | mkdir dir f => exact h.elim
  | copy srcpath tgtpath => exact h.elim
  | _ => rfl

/-- Only handlers that read list directories. -/
theorem onePage_of_not_read {t : Tree} {a : Snfs.Args} (h : ¬ a.IsRead) : a.OnePage t := by
  cases a with
  | readdir dir maxentries => exact absurd trivial h
  | _ => trivial

/-! ### The invariant -/

/-- What a consumer has to do for its request, where it is with the lock, and the phase the
request is in.  The handlers that read know the tree `t` through the view `A₀`; `own` says that
the consumer called `strtok` last. -/
inductive Job (numBlocks : Nat) (A₀ : View) (t : Tree) (fs : Fs) (own : Prop)
    (d : Req C (Page 1036)) :
    Work → Pc → Phase (Req C (Page 1036)) (C × Snfs.Res × Nat) → Prop
  | fetched : Job numBlocks A₀ t fs own d .none .fetch (.called d)
  | queued (q : Snfs.Stack × Snfs.Args) {e : Service} {c : Pc}
      (ha : Snfs.Args.ofReq d.req = some q.2) (he : findService d.req.type = some e)
      (hc : c.Locks e) :
      Job numBlocks A₀ t fs own d (.handling (.start q)) c (.called d)
  | reading {th : ReadThread} {e : Service} (ha : Snfs.Args.ofReq d.req = some th.args)
      (he : findService d.req.type = some e) (hread : e.isWrite = false)
      (hth : th = .start th.request ∨ th.Ok A₀ t fs own) :
      Job numBlocks A₀ t fs own d (.handling th) (.running e) (.called d)
  | writing {th : ReadThread} {e : Service} {fs₁ : Fs}
      (ha : Snfs.Args.ofReq d.req = some th.args) (he : findService d.req.type = some e)
      (hwrite : e.isWrite = true) (ht : IsTree CachedRel numBlocks fs₁ t)
      (hrest : Prog.run Fs.handler th.rest fs =
        Prog.run Fs.handler (th.args.handler th.stack) fs₁) :
      Job numBlocks A₀ t fs own d (.handling th) (.running e) (.called d)
  | answered (res : Snfs.Res) (ressz : Nat) {c : Pc} (hc : c.Past) :
      Job numBlocks A₀ t fs own d (.answered res ressz) c
        (.done (d.cliaddr, Ring.response clearedRes d res ressz))

/-- A consumer has no request, or it has one to do. -/
inductive Stage (numBlocks : Nat) (A₀ : View) (t : Tree) (fs : Fs) (own : Prop)
    (heap : Nat → Option (Req C (Page 1036))) :
    ConsumerPc → Work → Pc → Phase (Req C (Page 1036)) (C × Snfs.Res × Nat) → Prop
  | away {cpc : ConsumerPc} (hc : ∀ r, cpc ≠ .serving r) :
      Stage numBlocks A₀ t fs own heap cpc .none .fetch .idle
  | busy {p : Nat} {d : Req C (Page 1036)} {w : Work} {c : Pc}
      {ph : Phase (Req C (Page 1036)) (C × Snfs.Res × Nat)} (hd : heap p = some d)
      (hj : Job numBlocks A₀ t fs own d w c ph) :
      Stage numBlocks A₀ t fs own heap (.serving (some p)) w c ph

section

variable {numBlocks : Nat} {A₀ A₁ : View} {t t' : Tree} {fs fs' : Fs} {own own' : Prop}
  {d : Req C (Page 1036)} {w : Work} {c : Pc} {ph : Phase (Req C (Page 1036)) (C × Snfs.Res × Nat)}
  {heap heap' : Nat → Option (Req C (Page 1036))} {cpc : ConsumerPc}

/-- The file system does not matter to a job whose handler does not run. -/
theorem Job.frame (h : Job numBlocks A₀ t fs own d w c ph) (hc : ∀ e, c ≠ .running e) :
    Job numBlocks A₁ t' fs' own' d w c ph := by
  cases h with
  | fetched => exact .fetched
  | queued q ha he hc' => exact .queued q ha he hc'
  | reading => exact absurd rfl (hc _)
  | writing => exact absurd rfl (hc _)
  | answered res ressz hc' => exact .answered res ressz hc'

/-- What the caches do does not matter to a handler that reads. -/
theorem Job.frame_read (h : Job numBlocks A₀ t fs own d w c ph)
    (hc : ∀ e, c = .running e → e.isWrite = false)
    (hown : own' → own ∧ fs'.strtokRest = fs.strtokRest) : Job numBlocks A₀ t fs' own' d w c ph := by
  cases h with
  | fetched => exact .fetched
  | queued q ha he hc' => exact .queued q ha he hc'
  | reading ha he hread hth => exact .reading ha he hread (hth.imp_right fun h => h.frame hown)
  | @writing th e fs₁ ha he hwrite ht hrest =>
      rw [hc e rfl] at hwrite
      cases hwrite
  | answered res ressz hc' => exact .answered res ressz hc'

theorem Stage.frame (h : Stage numBlocks A₀ t fs own heap cpc w c ph) (hc : ∀ e, c ≠ .running e) :
    Stage numBlocks A₁ t' fs' own' heap cpc w c ph := by
  cases h with
  | away hcpc => exact .away hcpc
  | busy hd hj => exact .busy hd (hj.frame hc)

theorem Stage.frame_read (h : Stage numBlocks A₀ t fs own heap cpc w c ph)
    (hc : ∀ e, c = .running e → e.isWrite = false)
    (hown : own' → own ∧ fs'.strtokRest = fs.strtokRest) :
    Stage numBlocks A₀ t fs' own' heap cpc w c ph := by
  cases h with
  | away hcpc => exact .away hcpc
  | busy hd hj => exact .busy hd (hj.frame_read hc hown)

/-- The descriptor that the consumer has is where it was. -/
theorem Stage.frame_heap (h : Stage numBlocks A₀ t fs own heap cpc w c ph)
    (hheap : ∀ p d, cpc = .serving (some p) → heap p = some d → heap' p = some d) :
    Stage numBlocks A₀ t fs own heap' cpc w c ph := by
  cases h with
  | away hcpc => exact .away hcpc
  | busy hd hj => exact .busy (hheap _ _ rfl hd) hj

end

/-- The threads find this tree through this view. -/
structure Shared (numBlocks : Nat) (A₀ : View) (t : Tree) (fs : Fs) : Prop where
  eq : A₀.ino = A₀.tab
  numBlocks : A₀.numBlocks = numBlocks
  rep : Snfs.Rep A₀ t
  reads : Reads A₀ t fs

theorem Shared.tree {numBlocks : Nat} {A₀ : View} {t : Tree} {fs : Fs}
    (h : Shared numBlocks A₀ t fs) : IsTree CachedRel numBlocks fs t := by
  obtain ⟨A, hrel, ⟨h1, -, -, -, h5, h6, -⟩, hrep⟩ := h.reads
  exact ⟨A, hrel, hrep, by rw [h5, h6, h.eq], h1.trans h.numBlocks⟩

theorem Shared.of_tree {numBlocks : Nat} {t : Tree} {fs : Fs}
    (h : IsTree CachedRel numBlocks fs t) : ∃ A₀, Shared numBlocks A₀ t fs := by
  obtain ⟨A, hrel, hrep, heq, hnum⟩ := h
  exact ⟨A, heq, hnum, hrep, A, hrel, Snfs.SameTree.refl A, hrep⟩

/-- The requests have been answered so far as by `seq`, which is the tree that the threads find
when no handler writes. -/
structure Lin [Fintype K] [DecidableEq K] (numBlocks : Nat) (fs₀ : Fs) (A₀ : View) (t : Tree)
    (seq : Fs) (ph : K → Phase (Req C (Page 1036)) (C × Snfs.Res × Nat)) (s : System K C) :
    Prop where
  order : Order s.ring
  accounting : Accounting s.rw
  lin : LinearizesTo System.Serves fs₀ s.calls ph seq
  tree : IsTree CachedRel numBlocks seq t
  shared : (∀ k e, s.rw.pc k = .running e → e.isWrite = false) →
    Shared numBlocks A₀ t s.fs
  stage : ∀ k, Stage numBlocks A₀ t s.fs (s.strtokBy = some k) s.ring.heap (s.ring.consumer k)
    (s.work k) (s.rw.pc k) (ph k)
  ended : ∀ e, s.ended = some e → ∃ k d stack, ph k = .called d ∧
    Prog.run Fs.handler (Snfs.serve stack d.req) seq = .error e

namespace Lin

variable [Fintype K] [DecidableEq K] {numBlocks : Nat} {fs₀ : Fs} {A₀ : View} {t : Tree} {seq : Fs}
  {ph : K → Phase (Req C (Page 1036)) (C × Snfs.Res × Nat)} {s s' : System K C} {k : K}

theorem init (h : IsTree CachedRel numBlocks fs₀ t) :
    ∃ A₀, Lin numBlocks fs₀ A₀ t fs₀ (fun _ => .idle) (System.init fs₀ : System K C) := by
  obtain ⟨A, hA⟩ := Shared.of_tree h
  exact ⟨A, Order.init, Accounting.init, .start, h, fun _ => hA, fun _ => .away nofun, nofun⟩

/-! ### The ring -/

theorem ring {a : Ring.Act K C (Page 1036) (Page 1540)} {r : Ring K C (Page 1036) (Page 1540)}
    (h : Lin numBlocks fs₀ A₀ t seq ph s) (hend : s.ended = none)
    (ha : ∀ k body res n, a ≠ .answer k body res n)
    (hr : Ring.step clearedRes s.ring a = some r) :
    ∃ ph', Lin numBlocks fs₀ A₀ t seq ph' { s with ring := r } := by
  have hord := h.order.step hr
  have hended : ∀ {ph' : K → Phase (Req C (Page 1036)) (C × Snfs.Res × Nat)} e,
      s.ended = some e → ∃ k d stack, ph' k = .called d ∧
        Prog.run Fs.handler (Snfs.serve stack d.req) seq = .error e :=
    fun e he => by rw [hend] at he; cases he
  cases Ring.move h.order ha hr with
  | fetched k p d hk hcons hheap hd hevs =>
      -- the consumer had no request
      have hst := h.stage k
      rw [hk] at hst
      generalize hw : s.work k = w at hst
      generalize hpc : s.rw.pc k = c at hst
      generalize hph : ph k = φ at hst
      cases hst with
      | away =>
          refine ⟨Function.update ph k (.called d), hord, h.accounting, ?_, h.tree, h.shared,
            fun k' => ?_, hended⟩
          · have hcalls : ({ s with ring := r } : System K C).calls = _ := System.calls_snoc hevs
            rw [hcalls]
            exact h.lin.call hph d
          · change Stage numBlocks A₀ t s.fs (s.strtokBy = some k') r.heap (r.consumer k') (s.work k')
              (s.rw.pc k') _
            rw [hcons, hheap]
            by_cases hk' : k' = k
            · rw [hk', Function.update_self, Function.update_self, hw, hpc]
              exact .busy hd .fetched
            · rw [Function.update_of_ne hk', Function.update_of_ne hk']
              exact h.stage k'
  | other hserving haway hevs =>
      refine ⟨ph, hord, h.accounting, ?_, h.tree, h.shared, fun k => ?_, hended⟩
      · have hcalls : ({ s with ring := r } : System K C).calls = s.calls := by
          rcases hevs with hevs | ⟨e, hevs, hget, hsend⟩
          · exact congrArg (List.filterMap System.callEvent?) hevs
          · have hcalls : ({ s with ring := r } : System K C).calls = _ := System.calls_snoc hevs
            rw [hcalls]
            cases e with
            | get k got => exact absurd rfl (hget k got)
            | send k c res n => exact absurd rfl (hsend k c res n)
            | put p d => exact List.append_nil _
            | free k p => exact List.append_nil _
        rw [hcalls]
        exact h.lin
      · change Stage numBlocks A₀ t s.fs (s.strtokBy = some k) r.heap (r.consumer k) (s.work k)
          (s.rw.pc k) (ph k)
        have hst := h.stage k
        generalize hcpc : s.ring.consumer k = cpc at hst
        generalize s.work k = w at hst ⊢
        generalize s.rw.pc k = c at hst ⊢
        generalize ph k = φ at hst ⊢
        cases hst with
        | away hc => exact .away (haway k (fun x => hcpc ▸ hc x))
        | busy hd hj =>
            obtain ⟨hcons, hheap⟩ := hserving k _ _ hcpc hd
            rw [hcons]
            exact .busy hheap hj

/-! ### The lock -/

/-- `k` looks its request up; one of unknown type is answered at once. -/
theorem take {stack : Snfs.Stack} (h : Lin numBlocks fs₀ A₀ t seq ph s) (hend : s.ended = none)
    (hs : s.take k stack = some s') : ∃ ph', Lin numBlocks fs₀ A₀ t seq ph' s' := by
  rw [System.take] at hs
  split at hs
  · rename_i p hcons hwork
    obtain ⟨d, hd, hs⟩ := Option.bind_eq_some_iff.mp hs
    obtain ⟨rw', hrw, hs⟩ := Option.map_eq_some_iff.mp hs
    subst hs
    have hacc := rwStep_accounting h.accounting hrw
    have hst := h.stage k
    rw [hcons, hwork] at hst
    generalize hpc : s.rw.pc k = c at hst
    generalize hph : ph k = φ at hst
    cases hst with
    | away hc => exact absurd rfl (hc _)
    | busy hd' hj =>
        obtain rfl := Option.some.inj (hd.symm.trans hd')
        cases hj
        simp only [rwStep, hpc] at hrw
        rcases findService_ofReq d.req with ⟨hargs, hservice⟩ | ⟨a, e, hargs, hservice, -⟩
        · rw [hservice] at hrw
          obtain rfl := Option.some.inj hrw
          refine ⟨Function.update ph k
              (.done (d.cliaddr, Ring.response clearedRes d clearedRes resHeaderSize)),
            h.order, hacc, h.lin.point hph ?_, h.tree, h.shared, fun k' => ?_,
            fun e he => by rw [hend] at he; cases he⟩
          · exact ⟨rfl, stack, serve_unknown hargs hservice seq stack _ _⟩
          · dsimp only
            rw [hargs]
            by_cases hk : k' = k
            · rw [hk, Function.update_self, Function.update_self, hcons, hpc]
              exact .busy hd (.answered clearedRes resHeaderSize .fetch)
            · rw [Function.update_of_ne hk, Function.update_of_ne hk]
              exact h.stage k'
        · rw [hservice] at hrw
          obtain rfl := Option.some.inj hrw
          have hpcs : ∀ k', (enterRw s.rw k (.lock e)).pc k' =
              Function.update s.rw.pc k (.lock e) k' := fun _ => rfl
          refine ⟨ph, h.order, hacc, h.lin, h.tree, fun hread => h.shared fun k' e' hk' => ?_,
            fun k' => ?_, fun e he => by rw [hend] at he; cases he⟩
          · refine hread k' e' ?_
            dsimp only
            rw [hpcs, Function.update_of_ne (fun he => by rw [he, hpc] at hk'; cases hk')]
            exact hk'
          · dsimp only
            rw [hargs, hpcs]
            by_cases hk : k' = k
            · rw [hk, Function.update_self, Function.update_self, hcons, hph]
              exact .busy hd (.queued (stack, a) hargs hservice .lock)
            · rw [Function.update_of_ne hk, Function.update_of_ne hk]
              exact h.stage k'
  · cases hs

/-- The owner of the monitor goes on; a handler that is let in finds the tree. -/
theorem lock {r : RwLock K} (h : Lin numBlocks fs₀ A₀ t seq ph s) (hend : s.ended = none)
    (hr : rwStep s.rw .body = some r) : Lin numBlocks fs₀ A₀ t seq ph { s with rw := r } := by
  have hacc := rwStep_accounting h.accounting hr
  obtain ⟨k, c, hpcs, hmove⟩ := rwStep_body hr
  have hoff : ∀ k', k' ≠ k → r.pc k' = s.rw.pc k' := fun k' hk => by
    rw [hpcs, Function.update_of_ne hk]
  have hpc : r.pc k = c := by rw [hpcs, Function.update_self]
  have hbefore : ∀ e, s.rw.pc k ≠ .running e := hmove.not_running
  have hshared : (∀ k' e, r.pc k' = .running e → e.isWrite = false) →
      Shared numBlocks A₀ t s.fs := by
    refine fun hread => h.shared fun k' e hk' => hread k' e ?_
    rw [hoff k' fun he => hbefore e (he ▸ hk')]
    exact hk'
  refine ⟨h.order, hacc, h.lin, h.tree, hshared, fun k' => ?_, fun e he => by
    rw [hend] at he; cases he⟩
  change Stage numBlocks A₀ t s.fs (s.strtokBy = some k') s.ring.heap (s.ring.consumer k')
    (s.work k') (r.pc k') (ph k')
  have hst := h.stage k'
  by_cases hk : k' = k
  · subst hk
    rw [hpc]
    generalize s.ring.consumer k' = cpc at hst ⊢
    generalize s.work k' = w at hst ⊢
    generalize s.rw.pc k' = c₀ at hst hmove
    generalize ph k' = φ at hst ⊢
    cases hst with
    | away hcpc =>
        cases hmove with
        | sleeps hc => cases hc
        | passes hc => cases hc
    | busy hd hj =>
        cases hmove with
        | leaves e =>
            cases hj with
            | answered res ressz hc => exact .busy hd (.answered res ressz .fetch)
            | queued q ha he hc => cases hc
        | sleeps hc =>
            cases hj with
            | queued q ha he hc' =>
                obtain rfl := hc.unique hc'
                exact .busy hd (.queued q ha he .waiting)
            | answered res ressz hc' => cases hc' <;> cases hc
            | _ => cases hc
        | @passes _ e hc =>
            cases hj with
            | queued q ha he hc' =>
                obtain rfl := hc.unique hc'
                cases hwrite : e.isWrite with
                | false => exact .busy hd (.reading ha he hwrite (Or.inl rfl))
                | true =>
                    -- no other handler runs, so the tree is that of the file system
                    have htree := (h.shared fun u f hu => by
                      have hu' : r.pc u = .running f := by
                        rw [hoff u fun hne => hbefore f (hne ▸ hu)]
                        exact hu
                      have huk : u = k' := hacc.write_alone hpc hwrite hu'
                      exact absurd (huk ▸ hu) (hbefore f)).tree
                    exact .busy hd (.writing ha he hwrite htree rfl)
            | answered res ressz hc' => cases hc' <;> cases hc
            | _ => cases hc
  · rw [hoff k' hk]
    exact hst

/-! ### The handlers -/

/-- While a handler that reads runs, none that writes does. -/
theorem readers (h : Lin numBlocks fs₀ A₀ t seq ph s) {e : Service} (hpc : s.rw.pc k = .running e)
    (hread : e.isWrite = false) (k' : K) (f : Service) (hf : s.rw.pc k' = .running f) :
    f.isWrite = false := by
  cases hw : f.isWrite with
  | false => rfl
  | true =>
      have hkk : k = k' := h.accounting.write_alone hf hw hpc
      subst hkk
      rw [hpc] at hf
      cases hf
      rw [hread] at hw
      cases hw

/-- The handler of `k` returns what it returns when the request is served at this point. -/
theorem returns {d : Req C (Page 1036)} {th : ReadThread} {e : Service} {r : Option Snfs.Results}
    {seq' : Fs} {A₁ : View} {t' : Tree} {rw' : RwLock K} {p : Nat}
    (h : Lin numBlocks fs₀ A₀ t seq ph s) (hend : s.ended = none)
    (hcons : s.ring.consumer k = .serving (some p)) (hd : s.ring.heap p = some d)
    (hph : ph k = .called d) (ha : Snfs.Args.ofReq d.req = some th.args)
    (he : findService d.req.type = some e) (hpc : s.rw.pc k = .running e)
    (hrw : rwStep s.rw (.finish k) = some rw')
    (hrun : Prog.run Fs.handler (th.args.handler th.stack) seq = .ok (r, seq'))
    (htree : IsTree CachedRel numBlocks seq' t')
    (hshared : (∀ k' f, k' ≠ k → s.rw.pc k' = .running f → f.isWrite = false) →
      Shared numBlocks A₁ t' s.fs)
    (hstage : ∀ k', k' ≠ k → Stage numBlocks A₁ t' s.fs (s.strtokBy = some k') s.ring.heap
      (s.ring.consumer k') (s.work k') (s.rw.pc k') (ph k')) :
    ∃ ph', Lin numBlocks fs₀ A₁ t' seq' ph' { s with
      rw := rw'
      work := Function.update s.work k
        (.answered (Snfs.respond th.args r).1 (Snfs.respond th.args r).2) } := by
  have hacc := rwStep_accounting h.accounting hrw
  have hrw' : rw' = enterRw s.rw k (.unlock e) := by
    simp only [rwStep, hpc] at hrw
    exact (Option.some.inj hrw).symm
  have hpcs : rw'.pc = Function.update s.rw.pc k (.unlock e) := by rw [hrw', enterRw]
  have hserves : System.Serves seq d (d.cliaddr, Ring.response clearedRes d
      (Snfs.respond th.args r).1 (Snfs.respond th.args r).2) seq' :=
    ⟨rfl, th.stack, serve_known ha he hrun⟩
  refine ⟨_, h.order, hacc, h.lin.point hph hserves, htree, fun hread =>
    hshared fun k' f hk hf => ?_, fun k' => ?_, fun e he => by rw [hend] at he; cases he⟩
  · refine hread k' f ?_
    dsimp only
    rw [hpcs, Function.update_of_ne hk]
    exact hf
  · dsimp only
    rw [hpcs]
    by_cases hk : k' = k
    · rw [hk, Function.update_self, Function.update_self, Function.update_self, hcons]
      exact .busy hd (.answered _ _ (.unlock e))
    · rw [Function.update_of_ne hk, Function.update_of_ne hk, Function.update_of_ne hk]
      exact hstage k' hk

/-- The handler of `k` ends the process as it does when the request is served at this point. -/
theorem ends {d : Req C (Page 1036)} {a : Snfs.Args} {stack : Snfs.Stack} {e : Snfs.Halt}
    (h : Lin numBlocks fs₀ A₀ t seq ph s) (hph : ph k = .called d)
    (ha : Snfs.Args.ofReq d.req = some a)
    (hrun : Prog.run Fs.handler (a.handler stack) seq = .error e) :
    Lin numBlocks fs₀ A₀ t seq ph { s with ended := some e } := by
  refine ⟨h.order, h.accounting, h.lin, h.tree, h.shared, h.stage, fun e' he' => ?_⟩
  obtain rfl := Option.some.inj he'
  exact ⟨k, d, stack, hph, serve_ends ha hrun⟩

/-- A step of a handler that reads. -/
theorem handle_read {d : Req C (Page 1036)} {th : ReadThread} {e : Service} {p : Nat}
    (h : Lin numBlocks fs₀ A₀ t seq ph s) (hend : s.ended = none)
    (hcons : s.ring.consumer k = .serving (some p)) (hd : s.ring.heap p = some d)
    (hph : ph k = .called d) (ha : Snfs.Args.ofReq d.req = some th.args)
    (he : findService d.req.type = some e) (hread : e.isWrite = false)
    (hpc : s.rw.pc k = .running e) (hwork : s.work k = .handling th)
    (hth : th = .start th.request ∨ th.Ok A₀ t s.fs (s.strtokBy = some k))
    (hpage : s.fs.OnePage th.args)
    (hund : th.args.IsRead → th.Undisturbed s.fs (s.strtokBy = some k)) (hs : s.handle k = some s') :
    ∃ A₁ t' seq' ph', Lin numBlocks fs₀ A₁ t' seq' ph' s' := by
  have hsh := h.shared (h.readers hpc hread)
  have hisRead : th.args.IsRead := by
    rcases findService_ofReq d.req with ⟨hargs, -⟩ | ⟨a, f, hargs, hf, hiff⟩
    · rw [hargs] at ha
      cases ha
    · obtain rfl := Option.some.inj (hargs.symm.trans ha)
      obtain rfl := Option.some.inj (hf.symm.trans he)
      exact hiff.mp hread
  have hok : th.Ok A₀ t s.fs (s.strtokBy = some k) := by
    rcases hth with hstart | hok
    · rw [hstart]
      exact .start hsh.rep hisRead (hpage.tree hsh.tree) _
    · exact hok
  have hpageTree : th.args.OnePage t := hpage.tree hsh.tree
  -- what the request is answered with at this point
  have hseq := Snfs.isTree_handler Snfs.cached_sound Snfs.cached_forgets h.tree th.stack hpageTree
  rw [handler_of_read hisRead] at hseq
  simp only [System.handle, hpc, hwork] at hs
  split at hs
  · rename_i r hrest
    have hans : t.answer th.stack th.args = .ok r :=
      (hok.outcome (by rw [ReadThread.outcome, hrest])).symm
    rw [hans] at hseq
    obtain ⟨rw', hrw, hs⟩ := Option.map_eq_some_iff.mp hs
    subst hs
    rcases hseq with ⟨r', t', seq', heq, hrun, htree⟩ | ⟨e', heq, -⟩
    · obtain ⟨rfl, rfl⟩ := Prod.mk.inj (Except.ok.inj heq)
      exact ⟨A₀, t, seq', h.returns hend hcons hd hph ha he hpc hrw hrun htree (fun _ => hsh)
        fun k' _ => h.stage k'⟩
    · cases heq
  · rename_i e' hrest
    have hans : t.answer th.stack th.args = .error e' :=
      (hok.outcome (by rw [ReadThread.outcome, hrest])).symm
    rw [hans] at hseq
    obtain rfl := Option.some.inj hs
    rcases hseq with ⟨r', t', seq', heq, -, -⟩ | ⟨e'', heq, hrun⟩
    · cases heq
    · obtain rfl := Except.error.inj heq
      exact ⟨A₀, t, seq, ph, h.ends hph ha hrun⟩
  · rename_i o f hrest
    obtain ⟨x, fs', hop, hreads, hkept, hafter⟩ :=
      hok.step hsh.reads hsh.eq hrest (hund hisRead)
    rw [hop] at hs
    obtain rfl := Option.some.inj hs
    have hreq := th.after_request o x (f x)
    rw [ReadThread.request, ReadThread.request, Prod.mk.injEq] at hreq
    refine ⟨A₀, t, seq, ph, h.order, h.accounting, h.lin, h.tree,
      fun _ => ⟨hsh.eq, hsh.numBlocks, hsh.rep, hreads⟩, fun k' => ?_,
      fun e he => by rw [hend] at he; cases he⟩
    dsimp only
    by_cases hk : k' = k
    · subst hk
      rw [Function.update_self, hcons, hpc, hph]
      exact .busy hd (.reading (hreq.2 ▸ ha) he hread (Or.inr hafter))
    · rw [Function.update_of_ne hk]
      exact (h.stage k').frame_read (fun f hf => h.readers hpc hread k' f hf)
        (Snfs.FsOp.strtokBy_other hk hkept)

/-- A step of a handler that writes. -/
theorem handle_write {d : Req C (Page 1036)} {th : ReadThread} {e : Service} {p : Nat} {fs₁ : Fs}
    (h : Lin numBlocks fs₀ A₀ t seq ph s) (hend : s.ended = none)
    (hcons : s.ring.consumer k = .serving (some p)) (hd : s.ring.heap p = some d)
    (hph : ph k = .called d) (ha : Snfs.Args.ofReq d.req = some th.args)
    (he : findService d.req.type = some e) (hwrite : e.isWrite = true)
    (hpc : s.rw.pc k = .running e) (hwork : s.work k = .handling th)
    (ht : IsTree CachedRel numBlocks fs₁ t)
    (hrest : Prog.run Fs.handler th.rest s.fs =
      Prog.run Fs.handler (th.args.handler th.stack) fs₁)
    (hs : s.handle k = some s') : ∃ A₁ t' seq' ph', Lin numBlocks fs₀ A₁ t' seq' ph' s' := by
  have hnotRead : ¬ th.args.IsRead := by
    rcases findService_ofReq d.req with ⟨hargs, -⟩ | ⟨a, f, hargs, hf, hiff⟩
    · rw [hargs] at ha
      cases ha
    · obtain rfl := Option.some.inj (hargs.symm.trans ha)
      obtain rfl := Option.some.inj (hf.symm.trans he)
      exact fun hread => by rw [hiff.mpr hread] at hwrite; cases hwrite
  have hpage : th.args.OnePage t := onePage_of_not_read hnotRead
  -- nobody else runs a handler
  have halone : ∀ k', k' ≠ k → ∀ f, s.rw.pc k' ≠ .running f :=
    fun k' hk f hf => hk (h.accounting.write_alone hpc hwrite hf)
  have hseq := Snfs.isTree_handler Snfs.cached_sound Snfs.cached_forgets h.tree th.stack hpage
  have hown := Snfs.isTree_handler Snfs.cached_sound Snfs.cached_forgets ht th.stack hpage
  -- a handler that ends the process
  have hends : ∀ e', Prog.run Fs.handler (th.args.handler th.stack) fs₁ = .error e' →
      Lin numBlocks fs₀ A₀ t seq ph { s with ended := some e' } := by
    intro e' hrun
    rcases hown with ⟨r', t', s₁, -, hrun', -⟩ | ⟨e'', heq, hrun'⟩
    · rw [hrun] at hrun'
      cases hrun'
    · obtain rfl := Except.error.inj (hrun.symm.trans hrun')
      rcases hseq with ⟨r', t', s₁, heq', -, -⟩ | ⟨e'', heq', hrunSeq⟩
      · rw [heq] at heq'
        cases heq'
      · obtain rfl := Except.error.inj (heq.symm.trans heq')
        exact h.ends hph ha hrunSeq
  simp only [System.handle, hpc, hwork] at hs
  split at hs
  · rename_i r hret
    rw [hret] at hrest
    obtain ⟨rw', hrw, hs⟩ := Option.map_eq_some_iff.mp hs
    subst hs
    have hrun₁ : Prog.run Fs.handler (th.args.handler th.stack) fs₁ = .ok (r, s.fs) :=
      hrest.symm
    rcases hown with ⟨r', t', s₁, heq, hrun', htree⟩ | ⟨e', -, hrun'⟩
    · obtain ⟨rfl, rfl⟩ := Prod.mk.inj (Except.ok.inj (hrun₁.symm.trans hrun'))
      rcases hseq with ⟨r'', t'', seq', heq', hrunSeq, htreeSeq⟩ | ⟨e', heq', -⟩
      · obtain ⟨rfl, rfl⟩ := Prod.mk.inj (Except.ok.inj (heq.symm.trans heq'))
        obtain ⟨A₁, hA₁⟩ := Shared.of_tree htree
        exact ⟨A₁, t', seq', h.returns hend hcons hd hph ha he hpc hrw hrunSeq htreeSeq
          (fun _ => hA₁) fun k' hk => (h.stage k').frame (halone k' hk)⟩
      · rw [heq] at heq'
        cases heq'
    · rw [hrun₁] at hrun'
      cases hrun'
  · rename_i e' hhalt
    rw [hhalt] at hrest
    obtain rfl := Option.some.inj hs
    exact ⟨A₀, t, seq, ph, hends e' hrest.symm⟩
  · rename_i o f hop
    rw [hop, Prog.run] at hrest
    split at hs
    · rename_i x fs' hstep
      rw [hstep] at hrest
      obtain rfl := Option.some.inj hs
      have hreq := th.after_request o x (f x)
      rw [ReadThread.request, ReadThread.request, Prod.mk.injEq] at hreq
      refine ⟨A₀, t, seq, ph, h.order, h.accounting, h.lin, h.tree, fun hread => ?_, fun k' => ?_,
        fun e he => by rw [hend] at he; cases he⟩
      · have hreadk := hread k e hpc
        rw [hwrite] at hreadk
        cases hreadk
      · dsimp only
        by_cases hk : k' = k
        · rw [hk, Function.update_self, hcons, hpc, hph]
          refine .busy hd (.writing (hreq.2 ▸ ha) he hwrite ht ?_)
          rw [hreq.1, hreq.2, ReadThread.after_rest]
          exact hrest
        · rw [Function.update_of_ne hk]
          exact (h.stage k').frame (halone k' hk)
    · rename_i e' hstep
      rw [hstep] at hrest
      obtain rfl := Option.some.inj hs
      exact ⟨A₀, t, seq, ph, hends e' hrest.symm⟩

theorem handle (h : Lin numBlocks fs₀ A₀ t seq ph s) (hend : s.ended = none)
    (hsafe : s.Safe (.handle k)) (hs : s.handle k = some s') :
    ∃ A₁ t' seq' ph', Lin numBlocks fs₀ A₁ t' seq' ph' s' := by
  have hst := h.stage k
  have hs' := hs
  rw [System.handle] at hs'
  split at hs'
  · rename_i e th hpc hwork
    obtain ⟨hpage, hund⟩ := hsafe th hwork
    rw [hpc, hwork] at hst
    generalize hcons : s.ring.consumer k = cpc at hst
    generalize hph : ph k = φ at hst
    cases hst with
    | busy hd hj =>
        cases hj with
        | queued q ha he hc => cases hc
        | reading ha he hread hth =>
            exact h.handle_read hend hcons hd hph ha he hread hpc hwork hth hpage hund hs
        | writing ha he hwrite ht hrest =>
            exact h.handle_write hend hcons hd hph ha he hwrite hpc hwork ht hrest hs
  · cases hs'

/-! ### The response -/

theorem send (h : Lin numBlocks fs₀ A₀ t seq ph s) (hend : s.ended = none)
    (hs : s.send k = some s') : ∃ ph', Lin numBlocks fs₀ A₀ t seq ph' s' := by
  rw [System.send] at hs
  split at hs
  · rename_i p res ressz hcons hpc hwork
    obtain ⟨d, hd, hs⟩ := Option.bind_eq_some_iff.mp hs
    obtain ⟨r, hr, hs⟩ := Option.map_eq_some_iff.mp hs
    subst hs
    have hst := h.stage k
    rw [hcons, hpc, hwork] at hst
    generalize hph : ph k = φ at hst
    cases hst with
    | busy hd' hj =>
        obtain rfl := Option.some.inj (hd.symm.trans hd')
        cases hj
        obtain ⟨haway, hothers, hevs⟩ := Ring.answer_move h.order hcons hd hr
        have hcalls : ({ s with ring := r, work := Function.update s.work k .none } :
            System K C).calls = _ := System.calls_snoc hevs
        refine ⟨Function.update ph k .idle, h.order.step hr, h.accounting, ?_, h.tree, h.shared,
          fun k' => ?_, fun e he => by rw [hend] at he; cases he⟩
        · rw [hcalls]
          exact h.lin.ret hph
        · dsimp only
          by_cases hk : k' = k
          · rw [hk, Function.update_self, Function.update_self, hpc]
            exact .away haway
          · obtain ⟨hsame, hheap⟩ := hothers k' hk
            rw [Function.update_of_ne hk, Function.update_of_ne hk, hsame]
            exact (h.stage k').frame_heap hheap
  · cases hs

/-! ### Runs -/

theorem step {a : System.Act K C} (h : Lin numBlocks fs₀ A₀ t seq ph s) (hsafe : s.Safe a)
    (hs : s.step a = some s') : ∃ A₁ t' seq' ph', Lin numBlocks fs₀ A₁ t' seq' ph' s' := by
  unfold System.step at hs
  split at hs
  · cases hs
  · rename_i hrunning
    have hend : s.ended = none := by simpa using hrunning
    split at hs
    · cases hs
    · rename_i a hnot
      obtain ⟨r, hr, rfl⟩ := Option.map_eq_some_iff.mp hs
      exact ⟨A₀, t, seq, h.ring hend (fun k body res n he => hnot k body res n (he ▸ rfl)) hr⟩
    · exact ⟨A₀, t, seq, h.take hend hs⟩
    · obtain ⟨r, hr, rfl⟩ := Option.map_eq_some_iff.mp hs
      exact ⟨A₀, t, seq, ph, h.lock hend hr⟩
    · exact h.handle hend hsafe hs
    · exact ⟨A₀, t, seq, h.send hend hs⟩

end Lin

/-- In every run of the server from its start, in which no listing takes more than one page and no
handler that reads is disturbed, the requests are answered as by a file system that serves them one
at a time in some order that respects the order in which they are fetched and answered; and where
the process has ended, it is because a request that it has fetched would end it when it is served
next in that order. -/
theorem server_linearizable [Fintype K] [DecidableEq K] {numBlocks : Nat} (hn : 10 ≤ numBlocks)
    {readings : Nat → Int} {fs₀ : Fs} (hinit : Snfs.snfsInit numBlocks readings = .ok (.up fs₀))
    {tr : List (System K C × System.Act K C)} {s : System K C}
    (h : Run System.step (.init fs₀) tr s) (hsafe : ∀ p ∈ tr, p.1.Safe p.2) :
    ∃ ph seq, LinearizesTo System.Serves fs₀ s.calls ph seq ∧
      ∀ e, s.ended = some e → ∃ k d stack, ph k = .called d ∧
        Prog.run Fs.handler (Snfs.serve stack d.req) seq = .error e := by
  obtain ⟨t₀, ht₀⟩ := Snfs.isTree_server hn hinit .nil (by simp)
  obtain ⟨A₀, t, seq, ph, hlin⟩ := h.invariant_of
    (fun s => ∃ A₀ t seq ph, Lin numBlocks fs₀ A₀ t seq ph s) System.Safe
    (by obtain ⟨A, hA⟩ := Lin.init (K := K) (C := C) ht₀; exact ⟨A, t₀, fs₀, _, hA⟩)
    (fun _ _ _ ⟨_, _, _, _, hl⟩ hok hs => hl.step hok hs) hsafe
  exact ⟨ph, seq, hlin.lin, hlin.ended⟩

/-- The handler that goes on, if one does, lists no directory and is not disturbed. -/
def System.calm [DecidableEq K] (s : System K C) : System.Act K C → Bool
  | .handle k =>
      match s.work k with
      | .handling th => !th.args.lists && decide (th.Undisturbed s.fs (s.strtokBy = some k))
      | _ => true
  | _ => true

theorem System.safe_of_calm [DecidableEq K] {s : System K C} {a : System.Act K C}
    (h : s.calm a = true) : s.Safe a := by
  cases a with
  | handle k =>
      intro th hth
      simp only [calm, hth, Bool.and_eq_true, Bool.not_eq_true', decide_eq_true_eq] at h
      exact ⟨Snfs.Fs.onePage_of_not_lists h.1, fun _ => h.2⟩
  | _ => trivial

/-- One client asks for a file to be created, and is answered before the other, whose
`REQ_PING` was there first. -/
def pingAndCreate : List (System.Act Bool Nat) :=
  [.ring (.enterConsumer true), .ring .body, .ring .enterProducer, .ring .body,
    .ring (.receive 0 (some ⟨⟨1, 7, fun _ => 0⟩, 40, 264⟩)), .ring .body,
    .ring (.enterConsumer false), .ring .body, .ring .enterProducer, .ring .body,
    .ring (.receive 1 (some ⟨⟨5, 8, fun i => if i.val = 0 then 1 else if i.val = 4 then 97 else 0⟩,
      41, 26⟩)), .ring .body, .take false ⟨fun _ => 0, 0⟩, .take true ⟨fun _ => 0, 0⟩, .lock] ++
    List.replicate 26 (.handle false) ++
    [.lock, .lock, .send false, .lock, .handle true, .lock, .send true]

theorem server_linearizable_ping_and_create :
    ∃ (fs₀ : Fs) (s : System Bool Nat) (ph : Bool → Phase _ _) (seq : Fs),
      Snfs.snfsInit 12 (fun i => 7 * i) = .ok (.up fs₀) ∧ s.calls.length = 4 ∧
      LinearizesTo System.Serves fs₀ s.calls ph seq := by
  obtain ⟨fs, hs, hfacts⟩ := Snfs.on_started 12 (fun i => 7 * i)
    (fun fs => (runTrace System.step (.init fs) pingAndCreate).map fun r =>
      (r.2.calls.length, r.1.all fun p => p.1.calm p.2))
    (x := some (4, true)) (by decide +kernel)
  obtain ⟨⟨tr, s⟩, htr, hobs⟩ := Option.map_eq_some_iff.mp hfacts
  obtain ⟨hlen, hall⟩ := Prod.mk.inj hobs
  obtain ⟨ph, seq, hlin, -⟩ := server_linearizable (by decide) hs
    (run_of_runTrace pingAndCreate .nil htr)
    fun p hp => System.safe_of_calm (List.all_eq_true.mp hall p (by simpa using hp))
  exact ⟨fs, s, ph, seq, hs, hlen, hlin⟩

end Sthreads.Server
