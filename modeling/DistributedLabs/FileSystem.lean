import Mathlib.Data.List.Nodup
import Mathlib.Logic.Function.Basic

/-!
# Files that are written in private and then renamed

A directory gives names to files. Processes create files under fresh names, append to the files
that they created, and publish them with a rename, which is atomic. A file that has been
published is not written any more. When only the right content is ever published under a name,
a name that has it keeps it, whatever the processes do and wherever they stop.
-/

namespace DistributedLabs

/-- Names for files, the contents of the files, and the first number that no file has. -/
structure FileSystem (N A : Type*) where
  dir : N → Option ℕ
  data : ℕ → List A
  next : ℕ

namespace FileSystem

variable {N A W : Type*} {fs fs' : FileSystem N A} {name : N} {n : ℕ}

def content (fs : FileSystem N A) (name : N) : Option (List A) := (fs.dir name).map fs.data

def append (fs : FileSystem N A) (n : ℕ) (bytes : List A) : FileSystem N A :=
  { fs with data := Function.update fs.data n (fs.data n ++ bytes) }

section Names

variable [DecidableEq N]

def create (fs : FileSystem N A) (name : N) : FileSystem N A :=
  ⟨Function.update fs.dir name (some fs.next), Function.update fs.data fs.next [], fs.next + 1⟩

/-- A name that is taken away from another file if there is one. -/
def rename (fs : FileSystem N A) (old new : N) : FileSystem N A :=
  match fs.dir old with
  | none => fs
  | some n => { fs with dir := Function.update (Function.update fs.dir old none) new (some n) }

variable {name' old new : N} {m : ℕ} {bytes : List A}

theorem dir_create :
    (fs.create name).dir name' = if name' = name then some fs.next else fs.dir name' :=
  Function.update_apply ..

theorem data_create : (fs.create name).data n = if n = fs.next then [] else fs.data n :=
  Function.update_apply ..

omit [DecidableEq N] in
theorem data_append :
    (fs.append n bytes).data m = if m = n then fs.data n ++ bytes else fs.data m :=
  Function.update_apply ..

theorem dir_rename (h : fs.dir old = some n) :
    (fs.rename old new).dir name =
      if name = new then some n else if name = old then none else fs.dir name := by
  rw [rename, h]
  simp only [Function.update_apply]

@[simp] theorem data_rename : (fs.rename old new).data = fs.data := by
  rw [rename]
  split <;> rfl

@[simp] theorem next_rename : (fs.rename old new).next = fs.next := by
  rw [rename]
  split <;> rfl

end Names

/-- A file that a process has created and not yet published. -/
structure Temp (N : Type*) where
  name : N
  inode : ℕ
  deriving DecidableEq, Repr

/-- The files of the processes are not reachable under other names, and none of them has a name
for which there is a right content. -/
structure Private (Right : N → List A → Prop) (fs : FileSystem N A) (temps : W → List (Temp N)) :
    Prop where
  inodes : ∀ {name n}, fs.dir name = some n → n < fs.next
  linked : ∀ {w t}, t ∈ temps w → fs.dir t.name = some t.inode
  only : ∀ {w t name}, t ∈ temps w → fs.dir name = some t.inode → name = t.name
  secret : ∀ {w t c}, t ∈ temps w → ¬ Right t.name c
  nodup : ∀ w, ((temps w).map Temp.name).Nodup
  disjoint : ∀ {w w' t t'}, w ≠ w' → t ∈ temps w → t' ∈ temps w' → t.name ≠ t'.name

inductive Act [DecidableEq N] (Right : N → List A → Prop) (fs : FileSystem N A)
    (temps : List (Temp N)) : FileSystem N A → List (Temp N) → Prop
  | keep {rest : List (Temp N)} : rest.Sublist temps → Act Right fs temps fs rest
  | create {name : N} : fs.dir name = none → (∀ c, ¬ Right name c) →
    Act Right fs temps (fs.create name) (temps ++ [⟨name, fs.next⟩])
  | append {t : Temp N} (bytes : List A) :
      t ∈ temps → Act Right fs temps (fs.append t.inode bytes) temps
  | publish {t : Temp N} {rest : List (Temp N)} {target : N} : temps = t :: rest →
    Right target (fs.data t.inode) → Act Right fs temps (fs.rename t.name target) rest

/-- No process writes to the file any more. -/
def Settled (fs : FileSystem N A) (temps : W → List (Temp N)) (n : ℕ) : Prop :=
  n < fs.next ∧ ∀ w, ∀ t ∈ temps w, t.inode ≠ n

def Readable (fs : FileSystem N A) (temps : W → List (Temp N)) (n : ℕ) (c : List A) : Prop :=
  Settled fs temps n ∧ fs.data n = c

/-- What a process with the files `own` relies on while another one acts. -/
structure Frame (Right : N → List A → Prop) (fs : FileSystem N A) (temps : W → List (Temp N))
    (own : List (Temp N)) (fs' : FileSystem N A) (temps' : W → List (Temp N)) : Prop where
  own : ∀ t ∈ own, fs'.data t.inode = fs.data t.inode
  readable : ∀ {n c}, Readable fs temps n c → Readable fs' temps' n c
  holds : ∀ {name c}, Right name c → fs.content name = some c → fs'.content name = some c

section Acts

variable [DecidableEq N] {Right : N → List A → Prop} {temps : W → List (Temp N)}
  {w w' : W} {t t' : Temp N} {rest : List (Temp N)} {c : List A}

omit [DecidableEq N] in
theorem Private.inode_ne (h : Private Right fs temps) (hw : w ≠ w') (ht : t ∈ temps w)
    (ht' : t' ∈ temps w') : t.inode ≠ t'.inode := by
  intro heq
  refine h.disjoint hw ht ht' (h.only ht' ?_)
  rw [← heq]
  exact h.linked ht

omit [DecidableEq N] in
/-- The files of a process are different. -/
theorem Private.index_eq (h : Private Right fs temps) {i j : ℕ} (hi : (temps w)[i]? = some t)
    (hj : (temps w)[j]? = some t') (heq : t.inode = t'.inode) : i = j := by
  have ht := List.mem_of_getElem? hi
  have ht' := List.mem_of_getElem? hj
  have hname : t'.name = t.name := h.only ht (heq ▸ h.linked ht')
  have hlen : i < ((temps w).map Temp.name).length := by
    simpa using (List.getElem?_eq_some_iff.mp hi).1
  refine (List.getElem?_inj hlen (h.nodup w)).mp ?_
  rw [List.getElem?_map, List.getElem?_map, hi, hj]
  exact congrArg some hname.symm

omit [DecidableEq N] in
/-- A file with a name for which there is a right content is settled. -/
theorem Private.settled (h : Private Right fs temps) (hdir : fs.dir name = some n)
    (hright : Right name c) : Settled fs temps n := by
  refine ⟨h.inodes hdir, fun w t ht heq => ?_⟩
  have hname := h.only ht (heq ▸ hdir)
  exact h.secret ht (hname ▸ hright)

omit [DecidableEq N] in
/-- A name that has the right content can be opened and read. -/
theorem Private.readable (h : Private Right fs temps) (hright : Right name c)
    (hc : fs.content name = some c) : ∃ n, fs.dir name = some n ∧ Readable fs temps n c := by
  obtain ⟨n, hdir, hdata⟩ := Option.map_eq_some_iff.mp hc
  exact ⟨n, hdir, h.settled hdir hright, hdata⟩

theorem Act.next_le (h : Act Right fs (temps w) fs' rest) : fs.next ≤ fs'.next := by
  cases h with
  | keep => exact Nat.le_refl _
  | create => exact Nat.le_succ _
  | append => exact Nat.le_refl _
  | publish => exact Nat.le_of_eq next_rename.symm

/-- A process writes to its own files only. -/
theorem Act.data_eq (h : Act Right fs (temps w) fs' rest) (hn : n < fs.next)
    (hown : ∀ t ∈ temps w, t.inode ≠ n) : fs'.data n = fs.data n := by
  cases h with
  | keep => rfl
  | create => rw [data_create, if_neg (Nat.ne_of_lt hn)]
  | append bytes ht => rw [data_append, if_neg (hown _ ht).symm]
  | publish => rw [data_rename]

/-- The files of the other processes are left alone. -/
theorem Act.data_other (h : Act Right fs (temps w) fs' rest) (hp : Private Right fs temps)
    (hw : w' ≠ w) (ht : t ∈ temps w') : fs'.data t.inode = fs.data t.inode :=
  h.data_eq (hp.inodes (hp.linked ht)) fun _ ht' => (hp.inode_ne hw ht ht').symm

/-- A name that has the right content keeps it. -/
theorem Act.holds (h : Act Right fs (temps w) fs' rest) (hp : Private Right fs temps)
    (huniq : ∀ {name c c'}, Right name c → Right name c' → c = c') (hright : Right name c)
    (hc : fs.content name = some c) : fs'.content name = some c := by
  obtain ⟨n, hdir, hdata⟩ := Option.map_eq_some_iff.mp hc
  have hsettled := hp.settled hdir hright
  have hsame : fs'.data n = c := (h.data_eq hsettled.1 (hsettled.2 w)).trans hdata
  cases h with
  | keep => exact hc
  | create hfree =>
    rw [content, dir_create, if_neg, hdir]
    · exact congrArg some hsame
    · rintro rfl
      exact nomatch hdir.symm.trans hfree
  | append =>
    rw [content]
    exact (congrArg (Option.map _) hdir).trans (congrArg some hsame)
  | @publish t rest target htemps hpub =>
    have ht : t ∈ temps w := htemps ▸ List.mem_cons_self
    rw [content, dir_rename (hp.linked ht), data_rename]
    split_ifs with htarget hname
    · subst htarget
      exact congrArg some (huniq hpub hright)
    · exact (hp.secret ht (hname ▸ hright)).elim
    · rw [hdir]
      exact congrArg some hdata

/-- A name gets the content of the file that is published under it. -/
theorem Private.content_rename (hp : Private Right fs temps) (ht : t ∈ temps w) (target : N) :
    (fs.rename t.name target).content target = some (fs.data t.inode) := by
  rw [content, dir_rename (hp.linked ht), if_pos rfl, data_rename]
  rfl

omit [DecidableEq N] in
/-- A process may give up some of its files. -/
theorem Private.sublist (hp : Private Right fs temps) {temps' : W → List (Temp N)}
    (hsub : ∀ w, (temps' w).Sublist (temps w)) : Private Right fs temps' where
  inodes := hp.inodes
  linked ht := hp.linked ((hsub _).subset ht)
  only ht := hp.only ((hsub _).subset ht)
  secret ht := hp.secret ((hsub _).subset ht)
  nodup w := (hp.nodup w).sublist ((hsub w).map _)
  disjoint hw ht ht' := hp.disjoint hw ((hsub _).subset ht) ((hsub _).subset ht')

variable [DecidableEq W]

omit [DecidableEq N] in
theorem sublist_update (hsub : rest.Sublist (temps w)) (w' : W) :
    (Function.update temps w rest w').Sublist (temps w') := by
  rw [Function.update_apply]
  split_ifs with hw
  · rw [hw]
    exact hsub
  · exact .refl _

theorem Private.create (hp : Private Right fs temps) (hfree : fs.dir name = none)
    (hsecret : ∀ c, ¬ Right name c) :
    Private Right (fs.create name) (Function.update temps w (temps w ++ [⟨name, fs.next⟩])) := by
  have hcases {w' : W} {t : Temp N}
      (ht : t ∈ Function.update temps w (temps w ++ [⟨name, fs.next⟩]) w') :
      t ∈ temps w' ∨ w' = w ∧ t = ⟨name, fs.next⟩ := by
    rw [Function.update_apply] at ht
    split_ifs at ht with hw
    · rw [hw]
      exact (List.mem_append.mp ht).imp id fun ht => ⟨rfl, List.mem_singleton.mp ht⟩
    · exact .inl ht
  have hold {w' : W} {t : Temp N} (ht : t ∈ temps w') : t.name ≠ name := by
    rintro rfl
    exact nomatch (hp.linked ht).symm.trans hfree
  constructor
  · intro name' n hdir
    rw [dir_create] at hdir
    split_ifs at hdir
    · rw [← Option.some.inj hdir]
      exact Nat.lt_succ_self _
    · exact Nat.lt_succ_of_lt (hp.inodes hdir)
  · intro w' t ht
    rw [dir_create]
    rcases hcases ht with ht | ⟨-, rfl⟩
    · rw [if_neg (hold ht)]
      exact hp.linked ht
    · rw [if_pos rfl]
  · intro w' t name' ht hdir
    rw [dir_create] at hdir
    rcases hcases ht with ht | ⟨-, rfl⟩
    · split_ifs at hdir
      · exact absurd (Option.some.inj hdir).symm (Nat.ne_of_lt (hp.inodes (hp.linked ht)))
      · exact hp.only ht hdir
    · split_ifs at hdir with heq
      · exact heq
      · exact absurd rfl (Nat.ne_of_lt (hp.inodes hdir))
  · intro w' t c ht
    rcases hcases ht with ht | ⟨-, rfl⟩
    · exact hp.secret ht
    · exact hsecret c
  · intro w'
    rw [Function.update_apply]
    split_ifs
    · rw [List.map_append, List.nodup_append]
      refine ⟨hp.nodup w, by simp, fun x hx y hy => ?_⟩
      obtain ⟨t, ht, rfl⟩ := List.mem_map.mp hx
      rw [List.map_singleton, List.mem_singleton] at hy
      exact hy ▸ hold ht
    · exact hp.nodup w'
  · intro w₁ w₂ t t' hw ht ht'
    rcases hcases ht with ht | ⟨hw₁, rfl⟩
    · rcases hcases ht' with ht' | ⟨-, rfl⟩
      · exact hp.disjoint hw ht ht'
      · exact hold ht
    · rcases hcases ht' with ht' | ⟨hw₂, -⟩
      · exact (hold ht').symm
      · exact absurd (hw₁.trans hw₂.symm) hw

theorem Private.publish {target : N} (hp : Private Right fs temps) (htemps : temps w = t :: rest)
    (hright : Right target c) :
    Private Right (fs.rename t.name target) (Function.update temps w rest) := by
  have ht₀ : t ∈ temps w := htemps ▸ List.mem_cons_self
  have hp' : Private Right fs (Function.update temps w rest) :=
    hp.sublist (sublist_update (htemps ▸ List.sublist_cons_self t rest))
  have hne {w' : W} {t' : Temp N} (ht' : t' ∈ Function.update temps w rest w') :
      t'.name ≠ t.name := by
    rw [Function.update_apply] at ht'
    split_ifs at ht' with hw
    · have hnodup := hp.nodup w
      rw [htemps, List.map_cons, List.nodup_cons] at hnodup
      exact fun heq => hnodup.1 (heq ▸ List.mem_map_of_mem ht')
    · exact hp.disjoint hw ht' ht₀
  constructor
  · intro name n hdir
    rw [dir_rename (hp.linked ht₀)] at hdir
    rw [next_rename]
    split_ifs at hdir
    · rw [← Option.some.inj hdir]
      exact hp.inodes (hp.linked ht₀)
    · exact hp.inodes hdir
  · intro w' t' ht'
    have htarget : t'.name ≠ target := by
      rintro rfl
      exact hp'.secret ht' hright
    rw [dir_rename (hp.linked ht₀), if_neg htarget, if_neg (hne ht')]
    exact hp'.linked ht'
  · intro w' t' name ht' hdir
    rw [dir_rename (hp.linked ht₀)] at hdir
    split_ifs at hdir
    · refine absurd (hp'.only ht' ?_).symm (hne ht')
      rw [← hdir]
      exact hp.linked ht₀
    · exact hp'.only ht' hdir
  · exact hp'.secret
  · exact hp'.nodup
  · exact hp'.disjoint

theorem Settled.act (hs : Settled fs temps n) (h : Act Right fs (temps w) fs' rest) :
    Settled fs' (Function.update temps w rest) n := by
  refine ⟨Nat.lt_of_lt_of_le hs.1 h.next_le, fun w' t ht => ?_⟩
  rw [Function.update_apply] at ht
  split_ifs at ht with hw
  · cases h with
    | keep hsub => exact hs.2 w t (hsub.subset ht)
    | create =>
      rcases List.mem_append.mp ht with ht | ht
      · exact hs.2 w t ht
      · rw [List.mem_singleton.mp ht]
        exact (Nat.ne_of_lt hs.1).symm
    | append => exact hs.2 w t ht
    | publish htemps => exact hs.2 w t (htemps ▸ List.mem_cons_of_mem _ ht)
  · exact hs.2 w' t ht

theorem Act.readable (h : Act Right fs (temps w) fs' rest) (hr : Readable fs temps n c) :
    Readable fs' (Function.update temps w rest) n c :=
  ⟨hr.1.act h, (h.data_eq hr.1.1 (hr.1.2 w)).trans hr.2⟩

/-- What a process does is within the frame of every other one. -/
theorem Act.frame (h : Act Right fs (temps w) fs' rest) (hp : Private Right fs temps)
    (huniq : ∀ {name c c'}, Right name c → Right name c' → c = c') (hw : w' ≠ w) :
    Frame Right fs temps (temps w') fs' (Function.update temps w rest) where
  own _ ht := h.data_other hp hw ht
  readable := h.readable
  holds := h.holds hp huniq

/-- What a process does keeps the files of all processes private. -/
theorem Act.private (h : Act Right fs (temps w) fs' rest) (hp : Private Right fs temps) :
    Private Right fs' (Function.update temps w rest) := by
  cases h with
  | keep hsub => exact hp.sublist (sublist_update hsub)
  | create hfree hsecret => exact hp.create hfree hsecret
  | append =>
    rw [Function.update_eq_self]
    exact ⟨hp.inodes, hp.linked, hp.only, hp.secret, hp.nodup, hp.disjoint⟩
  | publish htemps hright => exact hp.publish htemps hright

end Acts

end FileSystem

end DistributedLabs
