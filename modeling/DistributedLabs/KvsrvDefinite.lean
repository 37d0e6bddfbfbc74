import DistributedLabs.KvsrvClerks
import DistributedLabs.LogPrefixes

/-!
# Failures that are definite

A `Put` that fails with `ErrVersion` or `ErrNoKey` tells its caller that it was not done. To
say whether that is so, we note with every request that was given up the call it was sent
for, and with every call whether one of its requests has changed the store.
-/

namespace DistributedLabs.Kvsrv

open KvServer (Err Tversion PutArgs GetArgs PutReply GetReply)
open KvClerks (KvOp KvInput KvOutput)
open Linearizability LogPrefixes TransitionRuns Relation

section Changes

variable {kv : KVServer} {req : Request}

def KVServer.Changes (kv : KVServer) (req : Request) : Prop := (kv.handle req).1 ≠ kv

theorem not_changes_get (args : GetArgs) : ¬ kv.Changes (.get args) := fun h => h rfl

theorem changes_put_iff {args : PutArgs} : kv.Changes (.put args) ↔ kv.Stores args := by
  constructor
  · intro hne
    by_contra hst
    rw [KVServer.Changes, KVServer.handle, put_of_not_stores hst] at hne
    exact hne rfl
  · intro hst heq
    have hversion := version_put_self hst
    change (kv.put args).1 = kv at heq
    rw [heq, ← hst] at hversion
    exact KvServer.add_one_ne args.version hversion.symm

instance (kv : KVServer) : (req : Request) → Decidable (kv.Changes req)
  | .get args => .isFalse (not_changes_get args)
  | .put args => decidable_of_iff (kv.Stores args) changes_put_iff.symm

theorem isSome_handle {key : String} (h : (kv.store.lookup key).isSome) :
    ((kv.handle req).1.store.lookup key).isSome := by
  cases req with
  | get args => exact h
  | put args => exact isSome_put h

end Changes

variable {c : ℕ}

/-- The service with its record: `owners` are the numbers of the calls that the late requests
were sent for, `changed` those of the calls that have changed the store, and a call is crossed
if another request of it was on its way when its latest one was answered. -/
structure Traced (c : ℕ) where
  service : Service c
  owners : List ℕ
  changed : List ℕ
  crossed : ℕ → Bool

def Traced.author (x : Traced c) : Event c → Option ℕ
  | .net (.execute k) => some (x.service.number k)
  | .net (.late i) => x.owners[i]?
  | _ => none

def Traced.changes (x : Traced c) (e : Event c) : List ℕ :=
  match e with
  | .net e' =>
    match x.service.net.executes e', x.author e with
    | some req, some j => if x.service.net.server.Changes req then [j] else []
    | _, _ => []
  | _ => []

def Traced.owners' (x : Traced c) : Event c → List ℕ
  | .net (.fail k) =>
    match x.service.net.pending k with
    | some ⟨_, _, .sent⟩ => x.owners ++ [x.service.number k]
    | _ => x.owners
  | .net (.late i) => x.owners.eraseIdx i
  | _ => x.owners

def Traced.crossed' (x : Traced c) : Event c → ℕ → Bool
  | .net (.execute k) =>
    Function.update x.crossed (x.service.number k) (x.owners.contains (x.service.number k))
  | _ => x.crossed

/-- The record after an event that leaves the service as `s`. -/
def Traced.after (x : Traced c) (e : Event c) (s : Service c) : Traced c :=
  ⟨s, x.owners' e, x.changed ++ x.changes e, x.crossed' e⟩

def Traced.step? (x : Traced c) (e : Event c) : Option (Traced c) :=
  (x.service.step? e).map (x.after e)

namespace Traced

def Step (x y : Traced c) : Prop := ∃ e, x.step? e = some y

def initial : Traced c := ⟨Kvsrv.initial, [], [], fun _ => false⟩

def Reached (x : Traced c) : Prop := Reachable (· = initial) Step x

def run (x : Traced c) (es : List (Event c)) : Option (Traced c) := exec Traced.step? x es

/-- A run that ends as a test says. -/
theorem exists_of_run {x : Traced c} {es : List (Event c)} {test : Traced c → Bool}
    (h : (x.run es).any test = true) : ∃ y, ReflTransGen Step x y ∧ test y = true :=
  exists_of_exec (fun _ e _ he => ⟨e, he⟩) h

variable {x y : Traced c} {j : ℕ} {k : Fin c} {pend : Pending}

/-- No request of the call is on its way, and none has changed the store. -/
def Clear (x : Traced c) (j : ℕ) : Prop := j ∉ x.owners ∧ j ∉ x.changed

structure Kept (x y : Traced c) (j : ℕ) : Prop where
  owners : j ∉ x.owners → j ∉ y.owners
  changed : Clear x j → j ∉ y.changed
  crossed : y.crossed j = x.crossed j

theorem Kept.clear (h : Kept x y j) (hc : Clear x j) : Clear y j := ⟨h.owners hc.1, h.changed hc⟩

/-- A clerk in its loop. Before its first request is answered, and after that was refused, the
call has not changed the store, and no other request of it can. -/
structure InCall (x : Traced c) (k : Fin c) (pend : Pending) : Prop where
  op : ∃ op, x.service.history[x.service.number k]? = some op ∧ op.client = k ∧
    op.result = none ∧ pend.request = request op.input
  kind : ∀ rep args, pend.rpc = .replied rep → pend.request = .put args → ∃ rsp, rep = .put rsp
  first : pend.firstPut = true → x.service.number k ∉ x.owners
  refused : pend.firstPut = true →
    pend.rpc = .sent ∨ pend.rpc = .replied (.put ⟨.errVersion⟩) → x.service.number k ∉ x.changed
  absent : pend.rpc = .replied (.put ⟨.errNoKey⟩) → x.crossed (x.service.number k) = false →
    Clear x (x.service.number k)

/-- The outcomes that tell for certain that the `Put` was not done. -/
def Failed (x : Traced c) (j : ℕ) (err : Err) : Prop :=
  err = .errVersion ∨ err = .errNoKey ∧ x.crossed j = false

structure Definite (x : Traced c) : Prop where
  length : x.owners.length = x.service.net.late.length
  late : ∀ (i : ℕ) req, x.service.net.late[i]? = some req →
    ∃ (j : ℕ) (op : Operation (Fin c) KvInput KvOutput), x.owners[i]? = some j ∧
      x.service.history[j]? = some op ∧ req = request op.input
  stored : ∀ j ∈ x.changed, ∃ op, x.service.history[j]? = some op ∧
    (x.service.net.server.store.lookup op.input.key).isSome
  calls : ∀ k pend, x.service.net.pending k = some pend → InCall x k pend
  failed : ∀ (j : ℕ) op r, x.service.history[j]? = some op → op.result = some r →
    op.input.op = .put →
    Failed x j r.1.err → Clear x j

theorem definite_initial : Definite (initial : Traced c) where
  length := rfl
  late := nofun
  stored := nofun
  calls := nofun
  failed := nofun

theorem InCall.keep (h : InCall x k pend) (hkept : Kept x y (x.service.number k))
    (hnumber : y.service.number k = x.service.number k)
    (hhistory : y.service.history[x.service.number k]? = x.service.history[x.service.number k]?) :
    InCall y k pend where
  op := by
    rw [hnumber, hhistory]
    exact h.op
  kind := h.kind
  first hfirst := by
    rw [hnumber]
    exact hkept.owners (h.first hfirst)
  refused hfirst hrpc := by
    rw [hnumber]
    exact hkept.changed ⟨h.first hfirst, h.refused hfirst hrpc⟩
  absent hrpc hcrossed := by
    rw [hnumber, hkept.crossed] at hcrossed
    rw [hnumber]
    exact hkept.clear (h.absent hrpc hcrossed)

theorem Failed.of_kept {err : Err} (h : Failed y j err) (hkept : Kept x y j) : Failed x j err := by
  rwa [Failed, ← hkept.crossed]

theorem Definite.owner_lt (hx : Definite x) (hj : j ∈ x.owners) : j < x.service.history.length := by
  obtain ⟨i, hi⟩ := List.getElem?_of_mem hj
  have hlt : i < x.service.net.late.length := by
    rw [← hx.length]
    exact (List.getElem?_eq_some_iff.mp hi).1
  obtain ⟨j', op, hj', hop, -⟩ := hx.late i _ (List.getElem?_eq_getElem hlt)
  obtain rfl := Option.some.inj (hi.symm.trans hj')
  exact (List.getElem?_eq_some_iff.mp hop).1

theorem Definite.changed_lt (hx : Definite x) (hj : j ∈ x.changed) :
    j < x.service.history.length := by
  obtain ⟨op, hop, -⟩ := hx.stored j hj
  exact (List.getElem?_eq_some_iff.mp hop).1

/-- The calls of two clerks have different numbers. -/
theorem Definite.number_ne (hx : Definite x) {k' : Fin c} {pend' : Pending}
    (hpend : x.service.net.pending k = some pend)
    (hpend' : x.service.net.pending k' = some pend') (hne : k' ≠ k) :
    x.service.number k' ≠ x.service.number k := by
  intro heq
  obtain ⟨op, hop, hclient, -⟩ := (hx.calls k pend hpend).op
  obtain ⟨op', hop', hclient', -⟩ := (hx.calls k' pend' hpend').op
  rw [heq] at hop'
  obtain rfl := Option.some.inj (hop.symm.trans hop')
  exact hne (hclient'.symm.trans hclient)

theorem Definite.returned_ne (hx : Definite x) (hpend : x.service.net.pending k = some pend)
    {op : Operation (Fin c) KvInput KvOutput} {r : KvOutput × ℕ}
    (hop : x.service.history[j]? = some op) (hr : op.result = some r) :
    j ≠ x.service.number k := by
  rintro rfl
  obtain ⟨op', hop', -, hnone, -⟩ := (hx.calls k pend hpend).op
  obtain rfl := Option.some.inj (hop.symm.trans hop')
  rw [hr] at hnone
  cases hnone

section Steps

/-- The key of a request that changes the store is in the store afterwards. -/
theorem isSome_of_changes {kv : KVServer} {inp : KvInput} (h : kv.Changes (request inp)) :
    ((kv.handle (request inp)).1.store.lookup inp.key).isSome := by
  cases hop : inp.op with
  | get =>
    rw [request, hop] at h
    exact (not_changes_get _ h).elim
  | put =>
    rw [request, hop] at h ⊢
    change ((kv.put _).1.store.lookup inp.key).isSome
    rw [lookup_put_self (changes_put_iff.mp h)]
    rfl

/-- What a request for a call that may have changed the store adds to the record. -/
theorem Definite.stored_concat (hx : Definite x) {op : Operation (Fin c) KvInput KvOutput}
    (hop : x.service.history[j]? = some op) {j' : ℕ}
    (hj' : j' ∈ x.changed ++
      if x.service.net.server.Changes (request op.input) then [j] else []) :
    ∃ op', x.service.history[j']? = some op' ∧
      ((x.service.net.server.handle (request op.input)).1.store.lookup op'.input.key).isSome := by
  rcases List.mem_append.mp hj' with hold | hnew
  · obtain ⟨op', hop', hsome⟩ := hx.stored j' hold
    exact ⟨op', hop', isSome_handle hsome⟩
  · split_ifs at hnew with hc
    · obtain rfl := List.mem_singleton.mp hnew
      exact ⟨op, hop, isSome_of_changes hc⟩
    · cases hnew

theorem changes_execute (hpend : x.service.net.pending k = some pend) (hrpc : pend.rpc = .sent) :
    x.changes (.net (.execute k)) =
      if x.service.net.server.Changes pend.request then [x.service.number k] else [] := by
  rw [Traced.changes, Net.executes_of_sent hpend hrpc]
  rfl

theorem kept_execute (hpend : x.service.net.pending k = some pend) (hrpc : pend.rpc = .sent)
    (hne : j ≠ x.service.number k) (s : Service c) :
    Kept x (x.after (.net (.execute k)) s) j := by
  refine ⟨id, fun hc hmem => ?_, Function.update_of_ne hne _ _⟩
  rcases List.mem_append.mp hmem with hold | hnew
  · exact hc.2 hold
  · rw [changes_execute hpend hrpc] at hnew
    split_ifs at hnew
    · exact hne (List.mem_singleton.mp hnew)
    · cases hnew

/-- The answer to a request of a call with nothing on its way. -/
theorem InCall.answered (h : InCall x k pend) (hx : Definite x)
    (hpend : x.service.net.pending k = some pend) (hrpc : pend.rpc = .sent)
    (hrefused : (x.service.net.server.handle pend.request).2 = .put ⟨.errVersion⟩ ∨
      (x.service.net.server.handle pend.request).2 = .put ⟨.errNoKey⟩) :
    x.changes (.net (.execute k)) = [] ∧
      ((x.service.net.server.handle pend.request).2 = .put ⟨.errNoKey⟩ →
        x.service.number k ∉ x.changed) := by
  obtain ⟨op, hop, -, -, hreq⟩ := h.op
  rw [changes_execute hpend hrpc]
  cases hput : op.input.op with
  | get =>
    rw [hreq, request, hput] at hrefused
    rcases hrefused with hrefused | hrefused <;> cases hrefused
  | put =>
    rw [request, hput] at hreq
    rw [hreq] at hrefused ⊢
    have hst :
        ¬ x.service.net.server.Stores ⟨op.input.key, op.input.value, op.input.version, 0⟩ := by
      intro hst
      rw [KVServer.handle, put_of_stores hst] at hrefused
      rcases hrefused with hrefused | hrefused <;> cases hrefused
    refine ⟨if_neg (mt changes_put_iff.mp hst), fun habsent hmem => ?_⟩
    obtain ⟨op', hop', hsome⟩ := hx.stored _ hmem
    obtain rfl := Option.some.inj (hop.symm.trans hop')
    rw [KVServer.handle, put_of_not_stores hst, if_pos hsome] at habsent
    cases habsent

theorem Definite.execute (hx : Definite x) (hpend : x.service.net.pending k = some pend)
    (hrpc : pend.rpc = .sent) : Definite (x.after (.net (.execute k))
      { x.service with net := { x.service.net.setPending k (some { pend with
          rpc := .replied (x.service.net.server.handle pend.request).2 }) with
          server := (x.service.net.server.handle pend.request).1 } }) := by
  have hcall := hx.calls k pend hpend
  obtain ⟨op, hop, hclient, hnone, hreq⟩ := hcall.op
  refine ⟨hx.length, hx.late, ?_, ?_, ?_⟩
  · intro j' hj'
    rw [Traced.after, changes_execute hpend hrpc, hreq] at hj'
    simp only [Traced.after]
    rw [hreq]
    exact hx.stored_concat hop hj'
  · intro k' pend' (hpend' : (x.service.net.setPending k _).pending k' = some pend')
    rcases Net.setPending_cases hpend' with ⟨rfl, hself⟩ | ⟨hk, hold⟩
    · obtain rfl := Option.some.inj hself
      refine ⟨⟨op, hop, hclient, hnone, hreq⟩, ?_, hcall.first, ?_, ?_⟩
      · intro rep args hrep hargs
        obtain rfl := Rpc.replied.inj hrep
        rw [hargs]
        exact ⟨_, rfl⟩
      · rintro hfirst (hrep | hrep)
        · cases hrep
        · have hrefused := Rpc.replied.inj hrep
          rw [Traced.after, (hcall.answered hx hpend hrpc (.inl hrefused)).1, List.append_nil]
          exact hcall.refused hfirst (.inl hrpc)
      · intro hrep hcrossed
        have hrefused := Rpc.replied.inj hrep
        obtain ⟨hsame, hno⟩ := hcall.answered hx hpend hrpc (.inr hrefused)
        simp only [Traced.after, crossed', Function.update_self] at hcrossed
        have hnone : x.service.number k' ∉ x.owners := by simpa using hcrossed
        refine ⟨hnone, ?_⟩
        · rw [Traced.after, hsame, List.append_nil]
          exact hno hrefused
    · have hne := hx.number_ne hpend hold hk
      exact (hx.calls k' pend' hold).keep (kept_execute hpend hrpc hne _) rfl rfl
  · intro j' op' r hop' hr hput hfailed
    have hkept := kept_execute hpend hrpc (hx.returned_ne hpend hop' hr)
    exact (hkept _).clear (hx.failed j' op' r hop' hr hput (hfailed.of_kept (hkept _)))

theorem kept_fail (hne : j ≠ x.service.number k) (s : Service c) :
    Kept x (x.after (.net (.fail k)) s) j := by
  refine ⟨fun hno hmem => ?_, fun hc => ?_, rfl⟩
  · simp only [Traced.after, owners'] at hmem
    split at hmem
    · rcases List.mem_append.mp hmem with hold | hnew
      · exact hno hold
      · exact hne (List.mem_singleton.mp hnew)
    · exact hno hmem
  · simpa [Traced.after, Traced.changes, Net.executes] using hc.2

theorem owners_fail (hpend : x.service.net.pending k = some pend) :
    x.owners' (.net (.fail k)) =
      x.owners ++ if pend.rpc = .sent then [x.service.number k] else [] := by
  obtain ⟨request, firstPut, rpc⟩ := pend
  cases rpc with
  | sent => simp [owners', hpend]
  | replied reply => simp [owners', hpend]

theorem Definite.fail (hx : Definite x) (hpend : x.service.net.pending k = some pend) :
    Definite (x.after (.net (.fail k)) { x.service with
      net := { x.service.net.setPending k (some { pend with firstPut := false, rpc := .sent }) with
        late := match pend.rpc with
          | .sent => x.service.net.late ++ [pend.request]
          | .replied _ => x.service.net.late } }) := by
  obtain ⟨op, hop, hclient, hnone, hreq⟩ := (hx.calls k pend hpend).op
  have howners := owners_fail hpend
  have hchanged : x.changed ++ x.changes (.net (.fail k)) = x.changed := List.append_nil _
  refine ⟨?_, ?_, ?_, ?_, ?_⟩
  · simp only [Traced.after, howners]
    cases pend.rpc <;> simp [hx.length]
  · intro i req hlate
    simp only [Traced.after, howners]
    cases hrpc : pend.rpc with
    | replied reply =>
      simp only [Traced.after, hrpc] at hlate
      simpa using hx.late i req hlate
    | sent =>
      simp only [Traced.after, hrpc] at hlate
      rcases getElem?_concat_cases hlate with ⟨rfl, rfl⟩ | hold
      · refine ⟨x.service.number k, op, ?_, hop, hreq⟩
        rw [if_pos rfl, ← hx.length, List.getElem?_concat_length]
      · obtain ⟨j', op', hj', hop', hreq'⟩ := hx.late i req hold
        refine ⟨j', op', ?_, hop', hreq'⟩
        rwa [List.getElem?_append_left (List.getElem?_eq_some_iff.mp hj').1]
  · intro j' hj'
    rw [Traced.after, hchanged] at hj'
    exact hx.stored j' hj'
  · intro k' pend' (hpend' : (x.service.net.setPending k _).pending k' = some pend')
    rcases Net.setPending_cases hpend' with ⟨rfl, hself⟩ | ⟨hk, hold⟩
    · obtain rfl := Option.some.inj hself
      exact ⟨⟨op, hop, hclient, hnone, hreq⟩, nofun, nofun, nofun, nofun⟩
    · have hne := hx.number_ne hpend hold hk
      exact (hx.calls k' pend' hold).keep (kept_fail hne _) rfl rfl
  · intro j' op' r hop' hr hput hfailed
    have hkept := kept_fail (hx.returned_ne hpend hop' hr)
    exact (hkept _).clear (hx.failed j' op' r hop' hr hput (hfailed.of_kept (hkept _)))

theorem changes_late {i : ℕ} {req : Request} (hreq : x.service.net.late[i]? = some req)
    (hj : x.owners[i]? = some j) : x.changes (.net (.late i)) =
      if x.service.net.server.Changes req then [j] else [] := by
  simp only [Traced.changes, Net.executes, author, hreq, hj]

/-- A late request belongs to a call that has one on its way. -/
theorem kept_late {i : ℕ} {req : Request} (hreq : x.service.net.late[i]? = some req) {j' : ℕ}
    (hj' : x.owners[i]? = some j') (j : ℕ) (s : Service c) :
    Kept x (x.after (.net (.late i)) s) j := by
  refine ⟨fun hno hmem => hno (List.mem_of_mem_eraseIdx hmem), fun hc hmem => ?_, rfl⟩
  rcases List.mem_append.mp hmem with hold | hnew
  · exact hc.2 hold
  · rw [changes_late hreq hj'] at hnew
    split_ifs at hnew
    · rw [List.mem_singleton.mp hnew] at hc
      exact hc.1 (List.mem_of_getElem? hj')
    · cases hnew

theorem Definite.late_execute (hx : Definite x) {i : ℕ} {req : Request}
    (hreq : x.service.net.late[i]? = some req) : Definite (x.after (.net (.late i))
      { x.service with net := { x.service.net with
        server := (x.service.net.server.handle req).1
        late := x.service.net.late.eraseIdx i } }) := by
  obtain ⟨j, op, hj, hop, rfl⟩ := hx.late i req hreq
  have hkept := kept_late hreq hj
  refine ⟨?_, ?_, ?_, ?_, ?_⟩
  · simp only [Traced.after, owners', List.length_eraseIdx, hx.length]
  · intro i' req' hlate
    simp only [Traced.after, owners', List.getElem?_eraseIdx] at hlate ⊢
    split_ifs at hlate ⊢ with hlt
    · exact hx.late i' req' hlate
    · exact hx.late (i' + 1) req' hlate
  · intro j' hj'
    rw [Traced.after, changes_late hreq hj] at hj'
    exact hx.stored_concat hop hj'
  · intro k' pend' hpend'
    exact (hx.calls k' pend' hpend').keep (hkept _ _) rfl rfl
  · intro j' op' r hop' hr hput hfailed
    exact (hkept j' _).clear (hx.failed j' op' r hop' hr hput (hfailed.of_kept (hkept j' _)))

theorem kept_invoke (input : KvInput) (j : ℕ) (s : Service c) :
    Kept x (x.after (.invoke k input) s) j :=
  ⟨id, fun hc => by simpa [Traced.after, Traced.changes] using hc.2, rfl⟩

theorem Definite.invoke (hx : Definite x) (input : KvInput)
    (hidle : x.service.net.pending k = none) :
    Definite (x.after (.invoke k input) (x.service.invoke k input)) := by
  have hkept := kept_invoke (x := x) (k := k) input
  have hold {j : ℕ} {op : Operation (Fin c) KvInput KvOutput}
      (hop : x.service.history[j]? = some op) :
      (x.service.invoke k input).history[j]? = some op := by
    rwa [Service.invoke, List.getElem?_append_left (List.getElem?_eq_some_iff.mp hop).1]
  have hchanged : x.changed ++ x.changes (.invoke k input) = x.changed := List.append_nil _
  refine ⟨hx.length, ?_, ?_, ?_, ?_⟩
  · intro i req hlate
    obtain ⟨j, op, hj, hop, hreq⟩ := hx.late i req hlate
    exact ⟨j, op, hj, hold hop, hreq⟩
  · intro j hj
    rw [Traced.after, hchanged] at hj
    obtain ⟨op, hop, hsome⟩ := hx.stored j hj
    exact ⟨op, hold hop, hsome⟩
  · intro k' pend' (hpend' : (x.service.net.setPending k _).pending k' = some pend')
    rcases Net.setPending_cases hpend' with ⟨rfl, hself⟩ | ⟨hk, hpend⟩
    · obtain rfl := Option.some.inj hself
      have hnumber : (x.service.invoke k' input).number k' = x.service.history.length :=
        Function.update_self _ _ _
      refine ⟨⟨⟨k', input, x.service.clock, none⟩, ?_, rfl, rfl, rfl⟩, nofun, fun _ => ?_,
        fun _ _ => ?_, nofun⟩
      · simp only [Traced.after]
        rw [hnumber, Service.invoke, List.getElem?_concat_length]
      · simp only [Traced.after]
        rw [hnumber]
        exact fun hmem => Nat.lt_irrefl _ (hx.owner_lt hmem)
      · simp only [Traced.after]
        rw [hnumber, hchanged]
        exact fun hmem => Nat.lt_irrefl _ (hx.changed_lt hmem)
    · obtain ⟨op, hop, -⟩ := (hx.calls k' pend' hpend).op
      exact (hx.calls k' pend' hpend).keep (hkept _ _) (Function.update_of_ne hk _ _)
        ((hold hop).trans hop.symm)
  · intro j op r hop hr hput hfailed
    rcases getElem?_concat_cases hop with ⟨-, rfl⟩ | hop
    · cases hr
    · exact (hkept j _).clear (hx.failed j op r hop hr hput (hfailed.of_kept (hkept j _)))

theorem kept_reply (j : ℕ) (s : Service c) : Kept x (x.after (.reply k) s) j :=
  ⟨id, fun hc => by simpa [Traced.after, Traced.changes] using hc.2, rfl⟩

/-- A call that returns with one of the outcomes that are definite. -/
theorem InCall.definite (h : InCall x k pend) {reply : Reply} (hrpc : pend.rpc = .replied reply)
    {op : Operation (Fin c) KvInput KvOutput} (hreq : pend.request = request op.input)
    (hput : op.input.op = .put)
    (hfailed : Failed x (x.service.number k) (output pend.firstPut reply).err) :
    Clear x (x.service.number k) := by
  rw [request, hput] at hreq
  obtain ⟨rsp, rfl⟩ := h.kind reply _ hrpc hreq
  obtain ⟨err⟩ := rsp
  rcases hfailed with hversion | ⟨hnokey, hcrossed⟩
  · simp only [output] at hversion
    split_ifs at hversion with hretried
    subst hversion
    have hfirst : pend.firstPut = true := by simpa using hretried
    exact ⟨h.first hfirst, h.refused hfirst (.inr hrpc)⟩
  · simp only [output] at hnokey
    split_ifs at hnokey
    subst hnokey
    exact h.absent hrpc hcrossed

theorem Definite.return (hx : Definite x) {reply : Reply}
    (hpend : x.service.net.pending k = some pend) (hrpc : pend.rpc = .replied reply) :
    Definite (x.after (.reply k) (x.service.return k (output pend.firstPut reply))) := by
  have hcall := hx.calls k pend hpend
  obtain ⟨op, hop, hclient, hnone, hreq⟩ := hcall.op
  have hkept := kept_reply (x := x) (k := k)
  have hchanged : x.changed ++ x.changes (.reply k) = x.changed := List.append_nil _
  have hold {j : ℕ} {op' : Operation (Fin c) KvInput KvOutput}
      (hop' : x.service.history[j]? = some op') :
      ∃ op'', (x.service.return k (output pend.firstPut reply)).history[j]? = some op'' ∧
        op''.input = op'.input := by
    by_cases hj : j = x.service.number k
    · subst hj
      exact ⟨_, getElem?_return_self hop', rfl⟩
    · exact ⟨op', (getElem?_return_of_ne hj).trans hop', rfl⟩
  refine ⟨hx.length, ?_, ?_, ?_, ?_⟩
  · intro i req hlate
    obtain ⟨j, op', hj, hop', rfl⟩ := hx.late i req hlate
    obtain ⟨op'', hop'', hinput⟩ := hold hop'
    exact ⟨j, op'', hj, hop'', by rw [hinput]⟩
  · intro j hj
    rw [Traced.after, hchanged] at hj
    obtain ⟨op', hop', hsome⟩ := hx.stored j hj
    obtain ⟨op'', hop'', hinput⟩ := hold hop'
    exact ⟨op'', hop'', by rwa [hinput]⟩
  · intro k' pend' (hpend' : (x.service.net.setPending k none).pending k' = some pend')
    rcases Net.setPending_cases hpend' with ⟨-, hself⟩ | ⟨hk, hother⟩
    · cases hself
    · exact (hx.calls k' pend' hother).keep (hkept _ _) rfl
        (getElem?_return_of_ne (hx.number_ne hpend hother hk))
  · intro j op' r hop' hr hput hfailed
    obtain ⟨op'', hop'', -, hinput, -, hcase⟩ := getElem?_return_cases hop'
    rcases hcase with ⟨rfl, hres⟩ | ⟨hne, rfl⟩
    · obtain rfl := Option.some.inj (hop.symm.trans hop'')
      obtain rfl := Option.some.inj (hres.symm.trans hr)
      rw [hinput] at hput
      exact (hkept _ _).clear (hcall.definite hrpc hreq hput (hfailed.of_kept (hkept _ _)))
    · exact (hkept j _).clear (hx.failed j op' r hop'' hr hput (hfailed.of_kept (hkept j _)))

theorem Definite.step (hx : Definite x) {e : Event c} (h : x.step? e = some y) : Definite y := by
  obtain ⟨s, hs, rfl⟩ := Option.map_eq_some_iff.mp h
  cases step_action hs with
  | invoke hidle => exact hx.invoke _ hidle
  | reply hpend hrpc => exact hx.return hpend hrpc
  | net hnet => cases hnet with
    | execute hpend hrpc => exact hx.execute hpend hrpc
    | fail hpend => exact hx.fail hpend
    | late hreq => exact hx.late_execute hreq

theorem definite_of_reached (hx : Reached x) : Definite x := by
  refine Reachable.invariant (I := Definite) hx (fun x hx => ?_) ?_
  · rw [hx]
    exact definite_initial
  · rintro x y - hdef ⟨e, he⟩
    exact hdef.step he

end Steps

section Futures

variable {op : Operation (Fin c) KvInput KvOutput} {r : KvOutput × ℕ}

/-- A step is not about a call that has returned, unless a late request of it is executed. -/
theorem Definite.kept_returned (hx : Definite x) (hop : x.service.history[j]? = some op)
    (hr : op.result = some r) {e : Event c} (h : x.step? e = some y) :
    Kept x y j ∧ y.service.history[j]? = some op := by
  obtain ⟨s, hs, rfl⟩ := Option.map_eq_some_iff.mp h
  cases step_action hs with
  | invoke hidle =>
    refine ⟨kept_invoke _ j _, ?_⟩
    exact (List.getElem?_append_left (List.getElem?_eq_some_iff.mp hop).1).trans hop
  | reply hpend hrpc =>
    exact ⟨kept_reply j _, (getElem?_return_of_ne (hx.returned_ne hpend hop hr)).trans hop⟩
  | net hnet => cases hnet with
    | execute hpend hrpc => exact ⟨kept_execute hpend hrpc (hx.returned_ne hpend hop hr) _, hop⟩
    | fail hpend => exact ⟨kept_fail (hx.returned_ne hpend hop hr) _, hop⟩
    | late hreq =>
      obtain ⟨j', -, hj', -⟩ := hx.late _ _ hreq
      exact ⟨kept_late hreq hj' j _, hop⟩

/-- A call that has returned with nothing on its way never changes the store any more. -/
theorem clear_of_run (hx : Reached x) (hop : x.service.history[j]? = some op)
    (hr : op.result = some r) (hc : Clear x j) (hrun : ReflTransGen Step x y) : Clear y j := by
  refine (run_preserves (I := fun y => Definite y ∧ y.service.history[j]? = some op ∧ Clear y j) ?_
    ⟨definite_of_reached hx, hop, hc⟩ hrun).2.2
  rintro y z ⟨hdef, hop, hc⟩ ⟨e, he⟩
  obtain ⟨hkept, hop'⟩ := hdef.kept_returned hop hr he
  exact ⟨hdef.step he, hop', hkept.clear hc⟩

/-- A run that leaves the late requests where they are. -/
structure Undisturbed (x y : Traced c) : Prop where
  run : ReflTransGen Step x y
  owners : y.owners = x.owners
  late : y.service.net.late = x.service.net.late

theorem Undisturbed.trans {z : Traced c} (h : Undisturbed x y) (h' : Undisturbed y z) :
    Undisturbed x z :=
  ⟨h.run.trans h'.run, h'.owners.trans h.owners, h'.late.trans h.late⟩

theorem step_of_service {e : Event c} {s : Service c} (h : x.service.step? e = some s) :
    Step x (x.after e s) :=
  ⟨e, by rw [Traced.step?, h]; rfl⟩

/-- A clerk receives an answer. -/
theorem exists_returned {reply : Reply} (hpend : x.service.net.pending k = some pend)
    (hrpc : pend.rpc = .replied reply) :
    ∃ y, Undisturbed x y ∧ y.service.net.pending k = none ∧
      y.service.net.server = x.service.net.server := by
  have hreply : x.service.step? (.reply k) =
      some (x.service.return k (output pend.firstPut reply)) := by
    simp [Service.step?, Net.answer, hpend, hrpc]
  exact ⟨_, ⟨.single (step_of_service hreply), rfl, rfl⟩, Function.update_self .., rfl⟩

/-- A request is executed and its answer received. -/
theorem exists_answered (hpend : x.service.net.pending k = some pend) (hrpc : pend.rpc = .sent) :
    ∃ y, Undisturbed x y ∧ y.service.net.pending k = none ∧
      y.service.net.server = (x.service.net.server.handle pend.request).1 := by
  let replied := { pend with rpc := .replied (x.service.net.server.handle pend.request).2 }
  let s : Service c := { x.service with
    net := { x.service.net.setPending k (some replied) with
      server := (x.service.net.server.handle pend.request).1 } }
  have hexecute : x.service.step? (.net (.execute k)) = some s := by
    simp [Service.step?, Net.step?, hpend, hrpc, replied, s]
  have hreplied : (x.after (.net (.execute k)) s).service.net.pending k = some replied :=
    Function.update_self ..
  obtain ⟨y, hy, hidle, hserver⟩ := exists_returned hreplied rfl
  exact ⟨y, ⟨.head (step_of_service hexecute) hy.run, hy.owners, hy.late⟩, hidle, hserver⟩

/-- A clerk can always return from its call. -/
theorem exists_idle (x : Traced c) (k : Fin c) :
    ∃ y, Undisturbed x y ∧ y.service.net.pending k = none := by
  cases hpend : x.service.net.pending k with
  | none => exact ⟨x, ⟨.refl, rfl, rfl⟩, hpend⟩
  | some pend =>
    cases hrpc : pend.rpc with
    | sent =>
      obtain ⟨y, hy, hidle, -⟩ := exists_answered hpend hrpc
      exact ⟨y, hy, hidle⟩
    | replied reply =>
      obtain ⟨y, hy, hidle, -⟩ := exists_returned hpend hrpc
      exact ⟨y, hy, hidle⟩

/-- A clerk with nothing to do brings a key to any version. -/
theorem exists_version (hidle : x.service.net.pending k = none) (key : String) (n : ℕ) :
    ∃ y, Undisturbed x y ∧ y.service.net.pending k = none ∧
      y.service.net.server.version key = UInt64.ofNat n + x.service.net.server.version key := by
  induction n with
  | zero => exact ⟨x, ⟨.refl, rfl, rfl⟩, hidle, by simp⟩
  | succ n ih =>
    obtain ⟨y, hy, hidle, hversion⟩ := ih
    let inp : KvInput := ⟨.put, key, "", y.service.net.server.version key⟩
    have hinvoke : Undisturbed y (y.after (.invoke k inp) (y.service.invoke k inp)) :=
      ⟨.single (step_of_service (by simp [Service.step?, hidle])), rfl, rfl⟩
    have hpend : (y.after (.invoke k inp) (y.service.invoke k inp)).service.net.pending k =
      some ⟨request inp, true, .sent⟩ := Function.update_self ..
    obtain ⟨z, hz, hidle', hserver⟩ := exists_answered hpend rfl
    refine ⟨z, hy.trans (hinvoke.trans hz), hidle', ?_⟩
    have hst : y.service.net.server.Stores ⟨key, "", y.service.net.server.version key, 0⟩ := rfl
    have hput : z.service.net.server = (y.service.net.server.put
      ⟨key, "", y.service.net.server.version key, 0⟩).1 := hserver
    rw [hput, version_put_self hst, hversion, UInt64.ofNat_add, UInt64.add_assoc, UInt64.add_assoc,
      UInt64.add_comm (UInt64.ofNat 1)]
    rfl

/-- A request on its way can still come to change the store. -/
theorem exists_changed (hx : Reached x) (hop : x.service.history[j]? = some op)
    (hput : op.input.op = .put) (hj : j ∈ x.owners) :
    ∃ y, ReflTransGen Step x y ∧ j ∈ y.changed := by
  have hdef := definite_of_reached hx
  obtain ⟨i, hi⟩ := List.getElem?_of_mem hj
  have hlt : i < x.service.net.late.length := by
    rw [← hdef.length]
    exact (List.getElem?_eq_some_iff.mp hi).1
  have hlate := List.getElem?_eq_getElem hlt
  obtain ⟨j', op', hj', hop', hreq⟩ := hdef.late i _ hlate
  obtain rfl := Option.some.inj (hi.symm.trans hj')
  obtain rfl := Option.some.inj (hop.symm.trans hop')
  have hrequest : request op.input = .put ⟨op.input.key, op.input.value, op.input.version, 0⟩ := by
    rw [request, hput]
  rw [hreq, hrequest] at hlate
  obtain ⟨y, hy, hidle⟩ := exists_idle x op.client
  let version := y.service.net.server.version op.input.key
  obtain ⟨z, hz, -, hversion⟩ :=
    exists_version hidle op.input.key (op.input.version - version).toNat
  have hxz := hy.trans hz
  rw [UInt64.ofNat_toNat, UInt64.sub_add_cancel] at hversion
  rw [← hxz.late] at hlate
  rw [← hxz.owners] at hi
  have hstep : z.service.step? (.net (.late i)) = some { z.service with net := { z.service.net with
      server := (z.service.net.server.handle
        (.put ⟨op.input.key, op.input.value, op.input.version, 0⟩)).1
      late := z.service.net.late.eraseIdx i } } := by
    simp [Service.step?, Net.step?, hlate]
  refine ⟨_, hxz.run.tail (step_of_service hstep), List.mem_append_right _ ?_⟩
  have hst : z.service.net.server.Stores ⟨op.input.key, op.input.value, op.input.version, 0⟩ :=
    hversion.symm
  rw [changes_late hlate hi, if_pos (changes_put_iff.mpr hst)]
  exact List.mem_singleton_self j

end Futures

end Traced

/-- A `Put` has returned with a failure. It has not changed the store and never will exactly when
none of its requests has done so or is on its way. That is so after `ErrVersion`, and after
`ErrNoKey` unless another request of the call was on its way when the server answered. -/
theorem definite_failure {x : Traced c} (hx : Traced.Reached x) {j : ℕ}
    {op : Operation (Fin c) KvInput KvOutput} {r : KvOutput × ℕ}
    (hop : x.service.history[j]? = some op) (hput : op.input.op = .put) (hr : op.result = some r)
    (herr : r.1.err = .errVersion ∨ r.1.err = .errNoKey) :
    ((∀ y, ReflTransGen Traced.Step x y → j ∉ y.changed) ↔ j ∉ x.owners ∧ j ∉ x.changed) ∧
      (r.1.err = .errVersion ∨ x.crossed j = false → j ∉ x.owners ∧ j ∉ x.changed) := by
  refine ⟨⟨fun hnever => ⟨fun hj => ?_, hnever x .refl⟩, fun hc y hrun => ?_⟩, fun hsure => ?_⟩
  · obtain ⟨y, hrun, hchanged⟩ := Traced.exists_changed hx hop hput hj
    exact hnever y hrun hchanged
  · exact (Traced.clear_of_run hx hop hr hc hrun).2
  · have hfailed : Traced.Failed x j r.1.err := by
      rcases hsure with hversion | hcrossed
      · exact .inl hversion
      · exact herr.imp_right fun hnokey => ⟨hnokey, hcrossed⟩
    exact (Traced.definite_of_reached hx).failed j op r hop hr hput hfailed

/-- The first answer is lost, and the second one comes to a clerk that has nothing on its way. -/
def repeatedRun : List (Event 2) :=
  [.invoke 0 ⟨.put, "k", "v", 1⟩, .net (.execute 0), .net (.fail 0), .net (.execute 0), .reply 0,
    .invoke 1 ⟨.put, "k", "w", 0⟩, .net (.execute 1)]

theorem definite_failure_repeated : ∃ x : Traced 2, Traced.Reached x ∧ x.changed = [1] ∧
    ∃ op, x.service.history[0]? = some op ∧ op.input = ⟨.put, "k", "v", 1⟩ ∧
      op.result = some (⟨"", 0, .errNoKey⟩, 1) ∧ 0 ∉ x.changed ∧ 0 ∉ x.owners := by
  obtain ⟨x, hx, htest⟩ := Traced.exists_of_run
    (show ((Traced.initial : Traced 2).run repeatedRun).any (fun x => decide (x.changed = [1] ∧
      x.service.history[0]? = some ⟨0, ⟨.put, "k", "v", 1⟩, 0, some (⟨"", 0, .errNoKey⟩, 1)⟩ ∧
      x.crossed 0 = false)) = true by decide +kernel)
  obtain ⟨hchanged, hop, hcrossed⟩ := of_decide_eq_true htest
  have hx : Traced.Reached x := ⟨_, rfl, hx⟩
  have hclear := (definite_failure hx hop rfl rfl (.inr rfl)).2 (.inr hcrossed)
  exact ⟨x, hx, hchanged, _, hop, rfl, rfl, hclear.2, hclear.1⟩

/-- The first request is held up, and the second one is answered. Then another clerk brings the
key to the version that the first request waits for. -/
def overtakenRun : List (Event 2) :=
  [.invoke 0 ⟨.put, "k", "v", 1⟩, .net (.fail 0), .net (.execute 0), .reply 0,
    .invoke 1 ⟨.put, "k", "w", 0⟩, .net (.execute 1), .reply 1, .net (.late 0)]

/-- A `Put` has returned `ErrNoKey`, and changes the store afterwards. -/
theorem stored_after_errNoKey : ∃ x : Traced 2, Traced.Reached x ∧
    x.service.history[0]? = some ⟨0, ⟨.put, "k", "v", 1⟩, 0, some (⟨"", 0, .errNoKey⟩, 1)⟩ ∧
    0 ∈ x.changed ∧ x.service.net.server.get ⟨"k"⟩ = ⟨"v", 2, .ok⟩ := by
  obtain ⟨x, hx, htest⟩ := Traced.exists_of_run
    (show ((Traced.initial : Traced 2).run overtakenRun).any (fun x => decide
      (x.service.history[0]? = some ⟨0, ⟨.put, "k", "v", 1⟩, 0, some (⟨"", 0, .errNoKey⟩, 1)⟩ ∧
      0 ∈ x.changed ∧ x.service.net.server.get ⟨"k"⟩ = ⟨"v", 2, .ok⟩)) = true by decide +kernel)
  exact ⟨x, ⟨_, rfl, hx⟩, of_decide_eq_true htest⟩

end DistributedLabs.Kvsrv
