import DistributedLabs.KvClerks

/-!
# Linearization points in the log

Every call takes effect at one of the operations that were executed for it: a `Put` that is
stored, at the operation that stores it, and any other call at the last operation executed
for it. Deduplication makes sure that later operations of a stored `Put` are answered from
the table, as long as no clerk uses the version of its last stored `Put` of a key again.
-/

namespace DistributedLabs.KvClerks

open KvServer Rsm Linearizability

variable {n c : ℕ} {B : Type*}

section Store

variable {kv : KVServer} {r : PutArgs}

/-- The store as the sequential model sees it. -/
def view (kv : KVServer) : String → KvState :=
  fun key => ⟨(kv.current key).value, (kv.current key).versionNo.toUInt64⟩

theorem view_of_stores (h : kv.Stores r) :
    view (kv.put r).1 = Function.update (view kv) r.key ⟨r.value, r.version + 1⟩ := by
  rw [put_of_stores h]
  funext key
  by_cases hk : key = r.key
  · subst hk
    simp only [view, KVServer.current, Finmap.lookup_insert, Option.getD_some,
      UInt64.toUInt64_toInt64, Function.update_self]
  · simp [view, KVServer.current, Finmap.lookup_insert_of_ne _ hk, hk]

theorem cached_eq_some {err : Err} : kv.cached r = some err ↔
    ∃ ve, kv.dedupTracker.lookup ⟨r.key, r.clerkId⟩ = some ve ∧
      r.version = ve.versionNo.toUInt64 ∧ ve.err = err := by
  simp [KVServer.cached, Option.bind_eq_some_iff]

def annotate (kv : KVServer) : List (Op Request) → List (KVServer × Op Request)
  | [] => []
  | o :: rest => (kv, o) :: annotate (kv.doOp o.req).1 rest

def after (kv : KVServer) (l : List (Op Request)) : KVServer :=
  l.foldl (fun kv o => (kv.doOp o.req).1) kv

theorem after_concat (l : List (Op Request)) (o : Op Request) :
    after KVServer.empty (l ++ [o]) = ((after KVServer.empty l).doOp o.req).1 := by
  simp [after]

theorem annotate_append (kv : KVServer) (l l' : List (Op Request)) :
    annotate kv (l ++ l') = annotate kv l ++ annotate (after kv l) l' := by
  induction l generalizing kv with
  | nil => rfl
  | cons o rest ih => simp only [List.cons_append, annotate, ih, after, List.foldl_cons]

theorem map_snd_annotate (kv : KVServer) (l : List (Op Request)) :
    (annotate kv l).map Prod.snd = l := by
  induction l generalizing kv with
  | nil => rfl
  | cons o rest ih => simp only [annotate, List.map_cons, ih]

theorem mem_annotate_of_split (kv : KVServer) (pre post : List (Op Request)) (o : Op Request) :
    (after kv pre, o) ∈ annotate kv (pre ++ o :: post) := by
  rw [annotate_append]
  exact List.mem_append_right _ List.mem_cons_self

end Store

structure Copy (cfg : Setup n c B) (h : List (Operation (Fin c) KvInput KvOutput))
    (origin : ℤ → Option ℕ) (o : Op Request) (i : ℕ) (op : Operation (Fin c) KvInput KvOutput) :
    Prop where
  origin : origin o.id = some i
  call : h[i]? = some op
  req : o.req = request (cfg.clerkId op.client) op.input

def LastCopy (origin : ℤ → Option ℕ) (l : List (Op Request)) (o : Op Request) (i : ℕ) : Prop :=
  l.Pairwise fun x y => x = o → origin y.id ≠ some i

/-- A `Put` has another version than the last `Put` of the key before it that returned `OK`
to its clerk. -/
def FreshVersions (h : List (Operation (Fin c) KvInput KvOutput)) : Prop :=
  ∀ (i j : ℕ) x y, i < j → h[i]? = some x → h[j]? = some y → y.input.op = .put →
    StoredPut y.client y.input.key x →
    (∀ k z, i < k → k < j → h[k]? = some z → ¬ StoredPut y.client y.input.key z) →
    x.input.version ≠ y.input.version

/-- The operations `l`, executed in this order, explain the history. -/
structure Explains (cfg : Setup n c B) (h : List (Operation (Fin c) KvInput KvOutput))
    (origin : ℤ → Option ℕ) (l : List (Op Request)) : Prop where
  clerkId : Function.Injective cfg.clerkId
  copies : ∀ o ∈ l, ∃ i op, Copy cfg h origin o i op
  ordered : l.Pairwise fun x y => ∀ i j op op', origin x.id = some i → origin y.id = some j →
    h[i]? = some op → h[j]? = some op' → ¬ op'.Precedes op
  sequential : ∀ (i j : ℕ) op op', i < j → h[i]? = some op → h[j]? = some op' →
    op.client = op'.client → op.Precedes op'
  returned : ∀ (i : ℕ) op r, h[i]? = some op → op.result = some r →
    ∃ pre o post isRetry, l = pre ++ o :: post ∧ Copy cfg h origin o i op ∧
      LastCopy origin l o i ∧ turn op.input isRetry
        (some (handler op.input (.ok ((after KVServer.empty pre).doOp o.req).2))) = some r.1
  fresh : FreshVersions h

variable {cfg : Setup n c B} {h : List (Operation (Fin c) KvInput KvOutput)}
  {origin : ℤ → Option ℕ} {l : List (Op Request)}

theorem Copy.unique {o : Op Request} {i j : ℕ} {op op' : Operation (Fin c) KvInput KvOutput}
    (hc : Copy cfg h origin o i op) (hc' : Copy cfg h origin o j op') : i = j ∧ op = op' := by
  obtain rfl := Option.some.inj (hc.origin.symm.trans hc'.origin)
  exact ⟨rfl, Option.some.inj (hc.call.symm.trans hc'.call)⟩

/-- The call behind a `Put` operation. -/
theorem Copy.put {o : Op Request} {i : ℕ} {op : Operation (Fin c) KvInput KvOutput}
    (hc : Copy cfg h origin o i op) {r : PutArgs} (hr : o.req = .put r) :
    op.input.op = .put ∧ r = ⟨op.input.key, op.input.value, op.input.version,
      cfg.clerkId op.client⟩ := by
  have := hc.req
  unfold request at this
  cases hop : op.input.op <;> rw [hop, hr] at this
  · cases this
  · exact ⟨rfl, KvServer.Request.put.inj this⟩

/-- Operations of one clerk are executed in the order of its calls. -/
theorem Explains.le_of_before (hl : Explains cfg h origin l) {pre post : List (Op Request)}
    {x y : Op Request} (hsplit : l = pre ++ y :: post) (hx : x ∈ pre) {i j : ℕ}
    {op op' : Operation (Fin c) KvInput KvOutput} (hcx : Copy cfg h origin x i op)
    (hcy : Copy cfg h origin y j op') (hclient : op.client = op'.client) : i ≤ j := by
  by_contra hlt
  have hord := hl.ordered
  rw [hsplit, List.pairwise_append] at hord
  exact hord.2.2 x hx y List.mem_cons_self i j op op' hcx.origin hcy.origin hcx.call hcy.call
    (hl.sequential j i op' op (by omega) hcy.call hcx.call hclient.symm)

/-- The operation is a `Put` for the given key and clerk, and it is stored. -/
structure StoresFor (x : KVServer × Op Request) (fk : FilterKey) (r : PutArgs) : Prop where
  req : x.2.req = .put r
  stores : x.1.Stores r
  key : (⟨r.key, r.clerkId⟩ : FilterKey) = fk

/-- The table holds, for every key and clerk, the version of the last `Put` that was stored,
which belongs to the latest call among those stored. -/
structure Owns (cfg : Setup n c B) (h : List (Operation (Fin c) KvInput KvOutput))
    (origin : ℤ → Option ℕ) (kv : KVServer) (past : List (KVServer × Op Request)) : Prop where
  owner : ∀ fk ve, kv.dedupTracker.lookup fk = some ve → ve.err = .ok ∧
    ∃ e ∈ past, ∃ r, StoresFor e fk r ∧ ve.versionNo = r.version.toInt64 ∧
      ∀ e' ∈ past, ∀ r', StoresFor e' fk r' → ∀ i j op op', Copy cfg h origin e'.2 i op →
        Copy cfg h origin e.2 j op' → i ≤ j
  kept : ∀ e ∈ past, ∀ fk r, StoresFor e fk r → ∃ ve, kv.dedupTracker.lookup fk = some ve

theorem Owns.idle {kv : KVServer} {past : List (KVServer × Op Request)} {x : KVServer × Op Request}
    (ho : Owns cfg h origin kv past) (hx : ∀ fk r, ¬ StoresFor x fk r) :
    Owns cfg h origin kv (past ++ [x]) := by
  refine ⟨fun fk ve hve => ?_, fun e he fk r hr => ?_⟩
  · obtain ⟨hok, e, he, r, hr, hver, hlatest⟩ := ho.owner fk ve hve
    refine ⟨hok, e, List.mem_append_left _ he, r, hr, hver, fun e' he' r' hr' => ?_⟩
    rcases List.mem_append.mp he' with he' | he'
    · exact hlatest e' he' r' hr'
    · rw [List.mem_singleton.mp he'] at hr'
      exact absurd hr' (hx fk r')
  · rcases List.mem_append.mp he with he | he
    · exact ho.kept e he fk r hr
    · rw [List.mem_singleton.mp he] at hr
      exact absurd hr (hx fk r)

theorem Owns.store {kv : KVServer} {past : List (KVServer × Op Request)} {o : Op Request}
    {r : PutArgs} (ho : Owns cfg h origin kv past) (hr : o.req = .put r) (hst : kv.Stores r)
    (hlast : ∀ e ∈ past, ∀ r', StoresFor e ⟨r.key, r.clerkId⟩ r' → ∀ i j op op',
      Copy cfg h origin e.2 i op → Copy cfg h origin o j op' → i ≤ j) :
    Owns cfg h origin (kv.put r).1 (past ++ [(kv, o)]) := by
  rw [put_of_stores hst]
  have hnew : StoresFor (kv, o) ⟨r.key, r.clerkId⟩ r := ⟨hr, hst, rfl⟩
  refine ⟨fun fk ve hve => ?_, fun e he fk r' hr' => ?_⟩
  · by_cases hfk : fk = ⟨r.key, r.clerkId⟩
    · subst hfk
      rw [Finmap.lookup_insert] at hve
      obtain rfl := Option.some.inj hve
      refine ⟨rfl, (kv, o), by simp, r, hnew, rfl, fun e' he' r' hr' i j op op' hc hc' => ?_⟩
      rcases List.mem_append.mp he' with he' | he'
      · exact hlast e' he' r' hr' i j op op' hc hc'
      · rw [List.mem_singleton.mp he'] at hc
        exact (hc.unique hc').1.le
    · rw [Finmap.lookup_insert_of_ne _ hfk] at hve
      obtain ⟨hok, e, he, r₀, hr₀, hver, hlatest⟩ := ho.owner fk ve hve
      refine ⟨hok, e, List.mem_append_left _ he, r₀, hr₀, hver, fun e' he' r' hr' => ?_⟩
      rcases List.mem_append.mp he' with he' | he'
      · exact hlatest e' he' r' hr'
      · rw [List.mem_singleton.mp he'] at hr'
        cases hr.symm.trans hr'.req
        exact absurd hr'.key.symm hfk
  · by_cases hfk : fk = ⟨r.key, r.clerkId⟩
    · subst hfk
      exact ⟨_, Finmap.lookup_insert _⟩
    · simp only [Finmap.lookup_insert_of_ne _ hfk]
      rcases List.mem_append.mp he with he | he
      · exact ho.kept e he fk r' hr'
      · rw [List.mem_singleton.mp he] at hr'
        cases hr.symm.trans hr'.req
        exact absurd hr'.key.symm hfk

/-- The clerk of a stored `Put` is the clerk of its call. -/
theorem Explains.client_eq (hl : Explains cfg h origin l) {x y : KVServer × Op Request}
    {fk : FilterKey} {r r' : PutArgs} (hx : StoresFor x fk r) (hy : y.2.req = .put r')
    (hfk : (⟨r'.key, r'.clerkId⟩ : FilterKey) = fk) {i j : ℕ}
    {op op' : Operation (Fin c) KvInput KvOutput} (hcx : Copy cfg h origin x.2 i op)
    (hcy : Copy cfg h origin y.2 j op') :
    op.client = op'.client ∧ op.input.key = op'.input.key ∧ op.input.op = .put := by
  obtain ⟨hop, rfl⟩ := hcx.put hx.req
  obtain ⟨-, rfl⟩ := hcy.put hy
  obtain ⟨hkey, hid⟩ := FilterKey.mk.inj (hx.key.trans hfk.symm)
  exact ⟨hl.clerkId hid, hkey, hop⟩

/-- Along the log, the table belongs to the stored calls. -/
theorem Explains.owns (hl : Explains cfg h origin l) (pre : List (Op Request)) (hpre : pre <+: l) :
    Owns cfg h origin (after KVServer.empty pre) (annotate KVServer.empty pre) := by
  induction pre using List.reverseRecOn with
  | nil => exact ⟨fun fk ve hve => by simp [after, KVServer.empty] at hve, fun e he => by cases he⟩
  | append_singleton pre o ih =>
    have ho := ih ((List.prefix_append _ _).trans hpre)
    obtain ⟨post, hpost⟩ := hpre
    have hsplit : l = pre ++ o :: post := by simpa using hpost.symm
    rw [annotate_append, after_concat]
    cases hreq : o.req with
    | put r =>
      by_cases hst : (after KVServer.empty pre).Stores r
      · refine ho.store hreq hst fun e he r' hr' i j op op' hc hc' => ?_
        have hmem : e.2 ∈ pre := by
          have := List.mem_map_of_mem (f := Prod.snd) he
          rwa [map_snd_annotate] at this
        refine hl.le_of_before hsplit hmem hc hc' ?_
        exact (hl.client_eq (y := (after KVServer.empty pre, o)) hr' hreq rfl hc hc').1
      · have hsame : ((after KVServer.empty pre).doOp (.put r)).1 = after KVServer.empty pre :=
          put_fst_of_not_stores hst
        rw [hsame]
        refine ho.idle fun fk r' hr' => hst ?_
        cases hreq.symm.trans hr'.req
        exact hr'.stores
    | get r =>
      refine ho.idle fun fk r' hr' => ?_
      cases hreq.symm.trans hr'.req
    | unknown x =>
      refine ho.idle fun fk r' hr' => ?_
      cases hreq.symm.trans hr'.req

theorem snd_mem_of_mem_annotate {kv : KVServer} {x : KVServer × Op Request}
    (hx : x ∈ annotate kv l) : x.2 ∈ l := by
  have := List.mem_map_of_mem (f := Prod.snd) hx
  rwa [map_snd_annotate] at this

/-- Where an executed operation stands relative to another one. -/
theorem mem_annotate_split {kv : KVServer} {pre post : List (Op Request)} {o : Op Request}
    {x : KVServer × Op Request} (hx : x ∈ annotate kv (pre ++ o :: post)) :
    x ∈ annotate kv pre ∨ x = (after kv pre, o) ∨ x.2 ∈ post := by
  rw [annotate_append] at hx
  rcases List.mem_append.mp hx with hx | hx
  · exact Or.inl hx
  · rcases List.mem_cons.mp hx with hx | hx
    · exact Or.inr (Or.inl hx)
    · exact Or.inr (Or.inr (snd_mem_of_mem_annotate hx))

/-- After a `Put` was stored, every operation of the same call is a duplicate. -/
theorem Explains.cached_of_stored (hl : Explains cfg h origin l) {pre post : List (Op Request)}
    {o : Op Request} (hsplit : l = pre ++ o :: post) {e : KVServer × Op Request}
    (he : e ∈ annotate KVServer.empty pre) {fk : FilterKey} {r₀ r : PutArgs}
    (hst : StoresFor e fk r₀) (hr : o.req = .put r) {i : ℕ}
    {op : Operation (Fin c) KvInput KvOutput} (hce : Copy cfg h origin e.2 i op)
    (hco : Copy cfg h origin o i op) : (after KVServer.empty pre).cached r = some .ok := by
  have howns := hl.owns pre ⟨o :: post, hsplit.symm⟩
  obtain ⟨ve, hve⟩ := howns.kept e he fk r₀ hst
  obtain ⟨hok, e₁, he₁, r₁, hst₁, hver, hlatest⟩ := howns.owner fk ve hve
  have hmem : e₁.2 ∈ pre := snd_mem_of_mem_annotate he₁
  obtain ⟨j, op₁, hc₁⟩ := hl.copies e₁.2 (hsplit ▸ List.mem_append_left _ hmem)
  have hfk : (⟨r.key, r.clerkId⟩ : FilterKey) = fk := by
    rw [(hco.put hr).2, ← hst.key, (hce.put hst.req).2]
  have hij : i ≤ j := hlatest e he r₀ hst i j op op₁ hce hc₁
  have hji : j ≤ i := hl.le_of_before hsplit hmem hc₁ hco
    (hl.client_eq (y := (after KVServer.empty pre, o)) hst₁ hr hfk hc₁ hco).1
  obtain rfl : i = j := le_antisymm hij hji
  obtain rfl := Option.some.inj (hco.call.symm.trans hc₁.call)
  refine cached_eq_some.mpr ⟨ve, by rw [hfk]; exact hve, ?_, hok⟩
  rw [hver, UInt64.toUInt64_toInt64, (hco.put hr).2, (hc₁.put hst₁.req).2]

/-- What a clerk returns for the reply to a `Put`. -/
theorem turn_put {inp : KvInput} (hput : inp.op = .put) {isRetry : Bool} {reply : PutReply}
    {out : KvOutput} (h : turn inp isRetry (some (handler inp (.ok (.put reply)))) = some out) :
    (reply.err = .ok ∧ out.err = .ok) ∨
      (reply.err = .errVersion ∧ (out.err = .errVersion ∨ out.err = .errMaybe)) := by
  simp only [turn, handler, hput, putHandler, putTurn] at h
  split_ifs at h with h1 h2 h3
  · exact Or.inr ⟨h1.2, Or.inl (Option.some.inj h ▸ rfl)⟩
  · exact Or.inr ⟨h2.2, Or.inr (Option.some.inj h ▸ rfl)⟩
  · exact Or.inl ⟨h3, Option.some.inj h ▸ h3⟩

/-- A call whose `Put` was stored returns `OK`, if it returns. -/
theorem Explains.ok_of_stored (hl : Explains cfg h origin l) {e : KVServer × Op Request}
    (he : e ∈ annotate KVServer.empty l) {fk : FilterKey} {r₀ : PutArgs}
    (hst : StoresFor e fk r₀) {i : ℕ} {op : Operation (Fin c) KvInput KvOutput}
    (hce : Copy cfg h origin e.2 i op) {res : KvOutput × ℕ} (hres : op.result = some res) :
    res.1.err = .ok := by
  obtain ⟨pre, o, post, isRetry, hsplit, hco, hlast, hturn⟩ := hl.returned i op res hce.call hres
  obtain ⟨hput, hr₀⟩ := hce.put hst.req
  have hr : o.req = .put r₀ := by
    rw [hco.req, ← hce.req, hst.req]
  rw [hr] at hturn
  have hreply : ((after KVServer.empty pre).put r₀).2.err = .ok := by
    rw [hsplit] at he
    rcases mem_annotate_split he with he | rfl | he
    · rw [put_of_cached (hl.cached_of_stored hsplit he hst hr hce hco)]
    · rw [put_of_stores hst.stores]
    · rw [hsplit, LastCopy, List.pairwise_append] at hlast
      exact absurd hce.origin ((List.pairwise_cons.mp hlast.2.1).1 e.2 he rfl)
  rcases turn_put hput hturn with ⟨-, hok⟩ | ⟨herr, -⟩
  · exact hok
  · rw [hreply] at herr
    cases herr

/-- A duplicate of call `i` has a stored `Put` of the same call before it. -/
def DupStored (cfg : Setup n c B) (h : List (Operation (Fin c) KvInput KvOutput))
    (origin : ℤ → Option ℕ) (l : List (Op Request)) (i : ℕ) : Prop :=
  ∀ pre o post r err op, l = pre ++ o :: post → o.req = .put r →
    (after KVServer.empty pre).cached r = some err → Copy cfg h origin o i op →
    ∃ e ∈ annotate KVServer.empty pre, ∃ fk r', StoresFor e fk r' ∧ Copy cfg h origin e.2 i op

/-- A call that returned `OK` was stored. -/
theorem Explains.stored_of_ok (hl : Explains cfg h origin l) {i : ℕ}
    (hdup : DupStored cfg h origin l i) {op : Operation (Fin c) KvInput KvOutput}
    (hop : h[i]? = some op) (hput : op.input.op = .put) {res : KvOutput × ℕ}
    (hres : op.result = some res) (hok : res.1.err = .ok) :
    ∃ e ∈ annotate KVServer.empty l, ∃ fk r, StoresFor e fk r ∧ Copy cfg h origin e.2 i op := by
  obtain ⟨pre, o, post, isRetry, hsplit, hco, hlast, hturn⟩ := hl.returned i op res hop hres
  have hr : o.req = .put ⟨op.input.key, op.input.value, op.input.version,
      cfg.clerkId op.client⟩ := by
    rw [hco.req, request, hput]
  rw [hr] at hturn
  cases hcached : (after KVServer.empty pre).cached _ with
  | some err =>
    obtain ⟨e, he, hst⟩ := hdup pre o post _ err op hsplit hr hcached hco
    refine ⟨e, ?_, hst⟩
    rw [hsplit, annotate_append]
    exact List.mem_append_left _ he
  | none =>
    by_cases hst : (after KVServer.empty pre).Stores
        ⟨op.input.key, op.input.value, op.input.version, cfg.clerkId op.client⟩
    · exact ⟨_, hsplit ▸ mem_annotate_of_split _ pre post o, _, _, ⟨hr, hst, rfl⟩, hco⟩
    · rcases turn_put hput hturn with ⟨hrep, -⟩ | ⟨-, hout⟩
      · rw [put_of_rejects hcached hst] at hrep
        cases hrep
      · rw [hok] at hout
        rcases hout with hout | hout <;> cases hout

/-- Duplicates are duplicates of stored operations of their own call, since no clerk uses
the version of its last stored `Put` again. -/
theorem Explains.dupStored (hl : Explains cfg h origin l) (i : ℕ) : DupStored cfg h origin l i := by
  induction i using Nat.strong_induction_on with
  | _ i ih =>
  intro pre o post r err op hsplit hr hcached hco
  obtain ⟨ve, hve, hver, -⟩ := cached_eq_some.mp hcached
  have howns := hl.owns pre ⟨o :: post, hsplit.symm⟩
  obtain ⟨-, e, he, r', hst, hver', hlatest⟩ := howns.owner _ ve hve
  have hmem : e.2 ∈ pre := snd_mem_of_mem_annotate he
  obtain ⟨j, op', hce⟩ := hl.copies e.2 (hsplit ▸ List.mem_append_left _ hmem)
  obtain ⟨hclient, hkey, hput'⟩ :=
    hl.client_eq (y := (after KVServer.empty pre, o)) hst hr rfl hce hco
  obtain ⟨hput, hrop⟩ := hco.put hr
  rcases (hl.le_of_before hsplit hmem hce hco hclient).eq_or_lt with rfl | hji
  · obtain rfl := Option.some.inj (hce.call.symm.trans hco.call)
    exact ⟨e, he, _, r', hst, hce⟩
  -- the entry of an earlier call: it returned `OK`, and none between it and this one did
  exfalso
  refine hl.fresh j i op' op hji hce.call hco.call hput ?_ ?_ ?_
  · obtain ⟨res, hres, -⟩ := hl.sequential j i op' op hji hce.call hco.call hclient
    have hin : e ∈ annotate KVServer.empty l := by
      rw [hsplit, annotate_append]
      exact List.mem_append_left _ he
    exact ⟨hclient, hput', hkey, res, hres, hl.ok_of_stored hin hst hce hres⟩
  · rintro k z hjk hki hz ⟨hzc, hzput, hzkey, res, hres, hok⟩
    obtain ⟨e₂, he₂, fk₂, r₂, hst₂, hce₂⟩ := hl.stored_of_ok (ih k hki) hz hzput hres hok
    have hfk₂ : fk₂ = ⟨r.key, r.clerkId⟩ := by
      rw [← hst₂.key, (hce₂.put hst₂.req).2, hrop, hzkey, hzc]
    rw [hsplit] at he₂
    rcases mem_annotate_split he₂ with he₂ | rfl | he₂
    · have := hlatest e₂ he₂ r₂ (hfk₂ ▸ hst₂) k j z op' hce₂ hce
      omega
    · exact absurd (hce₂.unique hco).1 (by omega)
    · obtain ⟨mid, post', hpost⟩ := List.append_of_mem he₂
      have hsplit' : l = (pre ++ o :: mid) ++ e₂.2 :: post' := by rw [hsplit, hpost]; simp
      have := hl.le_of_before hsplit' (by simp) hco hce₂ hzc.symm
      omega
  · have : r.version = r'.version := by rw [hver, hver', UInt64.toUInt64_toInt64]
    rw [hrop, (hce.put hst.req).2] at this
    exact this.symm

section Points

open Classical in
/-- Where calls take effect: a `Put` where it is stored, anything else at the last operation
of a call that has returned, if that is not a duplicate. -/
noncomputable def effect (h : List (Operation (Fin c) KvInput KvOutput)) (origin : ℤ → Option ℕ)
    (l : List (Op Request)) (x : KVServer × Op Request) : Option (ℕ × KvInput × KvOutput) :=
  (origin x.2.id).bind fun i => h[i]?.bind fun op =>
    if (∃ fk r, StoresFor x fk r) ∨ (op.result.isSome ∧ LastCopy origin l x.2 i ∧
        ∀ r, x.2.req = .put r → x.1.cached r = none) then
      some (i, op.input, (op.result.map Prod.fst).getD ⟨"", 0, .ok⟩)
    else none

theorem effect_eq_some {x : KVServer × Op Request} {i : ℕ} {inp : KvInput} {out : KvOutput} :
    effect h origin l x = some (i, inp, out) ↔ ∃ op, origin x.2.id = some i ∧ h[i]? = some op ∧
      ((∃ fk r, StoresFor x fk r) ∨ (op.result.isSome ∧ LastCopy origin l x.2 i ∧
        ∀ r, x.2.req = .put r → x.1.cached r = none)) ∧
      inp = op.input ∧ out = (op.result.map Prod.fst).getD ⟨"", 0, .ok⟩ := by
  simp only [effect, Option.bind_eq_some_iff]
  constructor
  · rintro ⟨i', hi, op, hop, hif⟩
    split_ifs at hif with hcond
    obtain ⟨rfl, rfl, rfl⟩ := by simpa using hif
    exact ⟨op, hi, hop, hcond, rfl, rfl⟩
  · rintro ⟨op, hi, hop, hcond, rfl, rfl⟩
    exact ⟨i, hi, op, hop, if_pos hcond⟩

/-- Relations between the operations of a log hold between its points. -/
theorem pairwise_annotate {R : Op Request → Op Request → Prop} (kv : KVServer)
    (hR : l.Pairwise R) : (annotate kv l).Pairwise fun x y => R x.2 y.2 := by
  rw [← map_snd_annotate kv l] at hR
  exact List.pairwise_map.mp hR

/-- A split of the points is a split of the log. -/
theorem annotate_eq_split {kv : KVServer} {xs zs : List (KVServer × Op Request)}
    {x : KVServer × Op Request} (hx : annotate kv l = xs ++ x :: zs) :
    ∃ pre post, l = pre ++ x.2 :: post ∧ x.1 = after kv pre ∧ xs = annotate kv pre ∧
      zs.map Prod.snd = post := by
  induction l generalizing kv xs with
  | nil => cases xs <;> cases hx
  | cons o rest ih =>
    cases xs with
    | nil =>
      obtain ⟨rfl, rfl⟩ := List.cons.inj hx
      exact ⟨[], rest, rfl, rfl, rfl, map_snd_annotate _ _⟩
    | cons y ys =>
      obtain ⟨rfl, hrest⟩ := List.cons.inj hx
      obtain ⟨pre, post, hl, hx1, hys, hzs⟩ := ih hrest
      exact ⟨o :: pre, post, by rw [hl]; rfl, hx1, by rw [hys]; rfl, hzs⟩

theorem pairwise_of_split {α : Type*} {R : α → α → Prop} {xs : List α}
    (h : ∀ as x bs, xs = as ++ x :: bs → ∀ y ∈ as, R y x) : xs.Pairwise R := by
  induction xs using List.reverseRecOn with
  | nil => exact List.Pairwise.nil
  | append_singleton xs x ih =>
    refine List.pairwise_append.mpr ⟨ih fun as y bs hxs => ?_, List.pairwise_singleton _ _, ?_⟩
    · exact h as y (bs ++ [x]) (by rw [hxs]; simp)
    · intro y hy z hz
      rw [List.mem_singleton.mp hz]
      exact h xs x [] rfl y hy

/-- The call for which an executed operation was made. -/
theorem Explains.copy (hl : Explains cfg h origin l) {o : Op Request} (ho : o ∈ l) {i : ℕ}
    {op : Operation (Fin c) KvInput KvOutput} (hi : origin o.id = some i) (hop : h[i]? = some op) :
    Copy cfg h origin o i op := by
  obtain ⟨j, op', hc⟩ := hl.copies o ho
  obtain rfl := Option.some.inj (hi.symm.trans hc.origin)
  exact ⟨hi, hop, Option.some.inj (hc.call.symm.trans hop) ▸ hc.req⟩

/-- No call takes effect twice. -/
theorem Explains.effect_once (hl : Explains cfg h origin l) :
    (annotate KVServer.empty l).Pairwise fun x y => ∀ p ∈ effect h origin l x,
      ∀ q ∈ effect h origin l y, p.1 ≠ q.1 := by
  refine pairwise_of_split fun xs y zs hsplit x hx => ?_
  rintro ⟨i, inp, out⟩ hp ⟨j, inp', out'⟩ hq hij
  obtain rfl : i = j := hij
  obtain ⟨op, hix, hop, hcase, -⟩ := effect_eq_some.mp hp
  obtain ⟨op', hiy, hop', hcase', -⟩ := effect_eq_some.mp hq
  obtain rfl := Option.some.inj (hop.symm.trans hop')
  obtain ⟨pre, post, hl', hy, rfl, -⟩ := annotate_eq_split hsplit
  have hxpre : x.2 ∈ pre := snd_mem_of_mem_annotate hx
  have hcx := hl.copy (hl' ▸ List.mem_append_left _ hxpre) hix hop
  have hcy := hl.copy (hl' ▸ List.mem_append_right _ List.mem_cons_self) hiy hop
  rcases hcase with ⟨fk, r, hst⟩ | ⟨-, hlast, -⟩
  · have hreq : y.2.req = .put r := by rw [hcy.req, ← hcx.req, hst.req]
    have hcached := hl.cached_of_stored hl' hx hst hreq hcx hcy
    rw [← hy] at hcached
    rcases hcase' with ⟨fk', r', hst'⟩ | ⟨-, -, hfree⟩
    · cases hreq.symm.trans hst'.req
      rw [hst'.stores.1] at hcached
      cases hcached
    · rw [hfree r hreq] at hcached
      cases hcached
  · rw [hl', LastCopy, List.pairwise_append] at hlast
    exact hlast.2.2 x.2 hxpre y.2 List.mem_cons_self rfl hiy

/-- Every call that has returned takes effect. -/
theorem Explains.effect_of_returned (hl : Explains cfg h origin l) {i : ℕ}
    {op : Operation (Fin c) KvInput KvOutput} (hop : h[i]? = some op) (hres : op.result.isSome) :
    ∃ x ∈ annotate KVServer.empty l, ∃ p ∈ effect h origin l x, p.1 = i := by
  obtain ⟨res, hr⟩ := Option.isSome_iff_exists.mp hres
  obtain ⟨pre, o, post, isRetry, hsplit, hco, hlast, -⟩ := hl.returned i op res hop hr
  by_cases hfree : ∀ r, o.req = .put r → (after KVServer.empty pre).cached r = none
  · refine ⟨_, hsplit ▸ mem_annotate_of_split _ pre post o, _, effect_eq_some.mpr
      ⟨op, hco.origin, hop, Or.inr ⟨hres, hlast, hfree⟩, rfl, rfl⟩, rfl⟩
  · simp only [not_forall] at hfree
    obtain ⟨r, hreq, hne⟩ := hfree
    obtain ⟨err, herr⟩ := Option.ne_none_iff_exists'.mp hne
    obtain ⟨e, he, fk, r', hst, hce⟩ := hl.dupStored i pre o post r err op hsplit hreq herr hco
    refine ⟨e, ?_, _, effect_eq_some.mpr ⟨op, hce.origin, hop, Or.inl ⟨fk, r', hst⟩, rfl, rfl⟩, rfl⟩
    rw [hsplit, annotate_append]
    exact List.mem_append_left _ he

/-- The last operation of a call that has returned gave the output of the call. -/
theorem Explains.output (hl : Explains cfg h origin l) {x : KVServer × Op Request}
    (hx : x ∈ annotate KVServer.empty l) {i : ℕ} {op : Operation (Fin c) KvInput KvOutput}
    (hcx : Copy cfg h origin x.2 i op) (hlast : LastCopy origin l x.2 i) {res : KvOutput × ℕ}
    (hres : op.result = some res) : ∃ isRetry,
      turn op.input isRetry (some (handler op.input (.ok (x.1.doOp x.2.req).2))) = some res.1 := by
  obtain ⟨pre, o, post, isRetry, hsplit, hco, hlast', hturn⟩ := hl.returned i op res hcx.call hres
  rw [LastCopy, hsplit, List.pairwise_append] at hlast hlast'
  rw [hsplit] at hx
  rcases mem_annotate_split hx with hx | rfl | hx
  · exact absurd hco.origin
      (hlast.2.2 x.2 (snd_mem_of_mem_annotate hx) o List.mem_cons_self rfl)
  · exact ⟨isRetry, hturn⟩
  · exact absurd hcx.origin ((List.pairwise_cons.mp hlast'.2.1).1 x.2 hx rfl)

/-- A clerk returns the reply to a `Get` as it is. -/
theorem turn_get (kv : KVServer) {inp : KvInput} (hget : inp.op = .get) (isRetry : Bool) :
    turn inp isRetry (some (handler inp (.ok (.get (kv.get ⟨inp.key⟩))))) =
      some ⟨(kv.get ⟨inp.key⟩).value, (kv.get ⟨inp.key⟩).version, (kv.get ⟨inp.key⟩).err⟩ := by
  simp only [turn, handler, hget, getHandler, getTurn, KVServer.get]
  cases kv.kvStore.lookup inp.key with
  | none => rfl
  | some val => rfl

theorem get_value (kv : KVServer) (key : String) : (kv.get ⟨key⟩).value = (view kv key).value := by
  simp only [KVServer.get, view, KVServer.current]
  cases kv.kvStore.lookup key with
  | none => rfl
  | some val => rfl

theorem kvStep_stored {kv : KVServer} {r : PutArgs} (hst : kv.Stores r) {inp : KvInput}
    (hput : inp.op = .put) (hkey : inp.key = r.key) (hvalue : inp.value = r.value)
    (hversion : inp.version = r.version) {out : KvOutput} (hok : out.err = .ok) :
    kvStep (view kv) inp out = (true, view (kv.put r).1) := by
  have hver : (view kv r.key).version = r.version := (toInt64_eq_iff.mp hst.2).symm
  simp [kvStep, KvState.step, hput, hkey, hvalue, hversion, hver, hok, view_of_stores hst]

theorem kvStep_rejected {kv : KVServer} {r : PutArgs} (hc : kv.cached r = none)
    (hst : ¬ kv.Stores r) {inp : KvInput} (hput : inp.op = .put) (hkey : inp.key = r.key)
    (hversion : inp.version = r.version) {out : KvOutput}
    (herr : out.err = .errVersion ∨ out.err = .errMaybe) :
    kvStep (view kv) inp out = (true, view kv) := by
  have hver : (view kv r.key).version ≠ r.version :=
    fun he => hst ⟨hc, toInt64_eq_iff.mpr he.symm⟩
  rcases herr with herr | herr <;>
    simp [kvStep, KvState.step, hput, hkey, hversion, hver, herr]

theorem kvStep_read {st : String → KvState} {inp : KvInput} (hget : inp.op = .get)
    {out : KvOutput} (hvalue : out.value = (st inp.key).value) :
    kvStep st inp out = (true, st) := by
  simp [kvStep, KvState.step, hget, hvalue]

/-- Where a call takes effect, the sequential model makes the same step. -/
theorem Explains.effect_step (hl : Explains cfg h origin l) {x : KVServer × Op Request}
    (hx : x ∈ annotate KVServer.empty l) {i : ℕ} {inp : KvInput} {out : KvOutput}
    (heff : effect h origin l x = some (i, inp, out)) :
    kvStep (view x.1) inp out = (true, view (x.1.doOp x.2.req).1) := by
  obtain ⟨op, hi, hop, hcase, rfl, hout⟩ := effect_eq_some.mp heff
  have hcx := hl.copy (snd_mem_of_mem_annotate hx) hi hop
  by_cases hst : ∃ fk r, StoresFor x fk r
  · obtain ⟨fk, r, hst⟩ := hst
    obtain ⟨hput, hr⟩ := hcx.put hst.req
    have hok : out.err = .ok := by
      cases hres : op.result with
      | none => simp [hout, hres]
      | some res => simpa [hout, hres] using hl.ok_of_stored hx hst hcx hres
    rw [hst.req]
    exact kvStep_stored hst.stores hput (by rw [hr]) (by rw [hr]) (by rw [hr]) hok
  · obtain ⟨hsome, hlast, hfree⟩ := hcase.resolve_left hst
    obtain ⟨res, hres⟩ := Option.isSome_iff_exists.mp hsome
    obtain rfl : out = res.1 := by simp [hout, hres]
    obtain ⟨isRetry, hturn⟩ := hl.output hx hcx hlast hres
    cases hinp : op.input.op with
    | get =>
      have hreq : x.2.req = .get ⟨op.input.key⟩ := by rw [hcx.req, request, hinp]
      rw [hreq] at hturn ⊢
      have hout := hturn.symm.trans (turn_get x.1 hinp isRetry)
      refine kvStep_read hinp ?_
      rw [Option.some.inj hout]
      exact get_value x.1 op.input.key
    | put =>
      have hreq : x.2.req = .put ⟨op.input.key, op.input.value, op.input.version,
          cfg.clerkId op.client⟩ := by rw [hcx.req, request, hinp]
      have hc := hfree _ hreq
      have hrej : ¬ x.1.Stores _ := fun hs => hst ⟨_, _, hreq, hs, rfl⟩
      have hsame : (x.1.doOp (.put ⟨op.input.key, op.input.value, op.input.version,
          cfg.clerkId op.client⟩)).1 = x.1 := put_fst_of_not_stores hrej
      rw [hreq] at hturn ⊢
      rw [hsame]
      refine kvStep_rejected hc hrej hinp rfl rfl ?_
      rcases turn_put hinp hturn with ⟨hrep, -⟩ | ⟨-, herr⟩
      · rw [put_of_rejects hc hrej] at hrep
        cases hrep
      · exact herr

/-- Where no call takes effect, the store stays the same. -/
theorem Explains.no_effect (hl : Explains cfg h origin l) {x : KVServer × Op Request}
    (hx : x ∈ annotate KVServer.empty l) (heff : effect h origin l x = none) :
    (x.1.doOp x.2.req).1 = x.1 := by
  obtain ⟨i, op, hc⟩ := hl.copies x.2 (snd_mem_of_mem_annotate hx)
  cases hreq : x.2.req with
  | put r =>
    refine put_fst_of_not_stores fun hst => ?_
    have hsome : effect h origin l x = some _ := effect_eq_some.mpr
      ⟨op, hc.origin, hc.call, Or.inl ⟨_, r, hreq, hst, rfl⟩, rfl, rfl⟩
    rw [heff] at hsome
    cases hsome
  | get r => rfl
  | unknown u => rfl

theorem Explains.legal (hl : Explains cfg h origin l) (kv : KVServer) (rest : List (Op Request))
    (hrest : ∀ x ∈ annotate kv rest, x ∈ annotate KVServer.empty l) :
    Legal kvStep (view kv) (((annotate kv rest).filterMap (effect h origin l)).map Prod.snd) := by
  induction rest generalizing kv with
  | nil => trivial
  | cons o rest ih =>
    have hx := hrest (kv, o) List.mem_cons_self
    have htail := ih (kv.doOp o.req).1 fun x hx => hrest x (List.mem_cons_of_mem _ hx)
    cases heff : effect h origin l (kv, o) with
    | none =>
      have hsame : (kv.doOp o.req).1 = kv := hl.no_effect hx heff
      rw [hsame] at htail
      simpa only [annotate, hsame, List.filterMap_cons_none heff] using htail
    | some p =>
      obtain ⟨i, inp, out⟩ := p
      have hstep := hl.effect_step hx heff
      simp only [annotate, List.filterMap_cons_some heff, List.map_cons, Legal]
      rw [hstep]
      exact ⟨rfl, htail⟩

theorem view_empty : view KVServer.empty = kvInit := by
  funext key
  simp [view, KVServer.current, KVServer.empty, zeroValue, kvInit]
  rfl

/-- A history that executed operations explain is linearizable. -/
theorem Explains.linearizable (hl : Explains cfg h origin l) : Linearizable kvStep kvInit h := by
  refine ⟨_, Linearization.of_points (annotate KVServer.empty l) (effect h origin l) hl.effect_once
    ?_ (fun i op => hl.effect_of_returned) ?_ ?_⟩
  · rintro x - ⟨i, inp, out⟩ hp
    obtain ⟨op, -, hop, -, rfl, rfl⟩ := effect_eq_some.mp hp
    refine ⟨op, hop, rfl, fun r hr => ?_⟩
    rw [Option.mem_def.mp hr]
    rfl
  · refine (pairwise_annotate KVServer.empty hl.ordered).imp ?_
    rintro x y hxy ⟨i, inp, out⟩ hp ⟨j, inp', out'⟩ hq op hop op' hop'
    obtain ⟨-, hi, -⟩ := effect_eq_some.mp hp
    obtain ⟨-, hj, -⟩ := effect_eq_some.mp hq
    exact hxy i j op op' hi hj hop hop'
  · rw [← view_empty]
    exact hl.legal KVServer.empty l fun x hx => hx

end Points

end DistributedLabs.KvClerks
