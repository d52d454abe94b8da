import AresOS.Lib.LinkedPath

/-!
# Intrusive process queues

Shallow embedding of `process/queue.c`.  A queue holds a head, a tail and a
count; the links are the `next` fields of the process control blocks, which
all queues share.  `Pool` collects the `next` fields of all control blocks and
any number of queues over them; `ι` is the type of pointers to control blocks
and `κ` names the queues.

The two loops that follow `next` carry a fuel, and `none` means that the loop
is still running when it is used up.

A pool represents a list for each queue (`PoolRep`), and each operation is
described by its effect on these lists.
-/

namespace AresOS.Process

open LinkedPath Function

/-- `process_queue_t`. -/
structure Queue (ι : Type*) where
  head : Option ι
  tail : Option ι
  count : Nat

/-- The `next` fields of the control blocks and the queues over them. -/
structure Pool (ι κ : Type*) where
  next : ι → Option ι
  queue : κ → Queue ι

section

variable {ι κ : Type*} [DecidableEq ι] [DecidableEq κ]

def Pool.setNext (s : Pool ι κ) (x : ι) (p : Option ι) : Pool ι κ :=
  { s with next := update s.next x p }

def Pool.setQueue (s : Pool ι κ) (k : κ) (q : Queue ι) : Pool ι κ :=
  { s with queue := update s.queue k q }

def queueInit (s : Pool ι κ) (k : κ) : Pool ι κ := s.setQueue k ⟨none, none, 0⟩

def queuePush (s : Pool ι κ) (k : κ) (proc : ι) : Pool ι κ :=
  let s := s.setNext proc none
  let q := s.queue k
  let s :=
    match q.tail with
    | some t => s.setNext t (some proc)
    | none => s.setQueue k { q with head := some proc }
  let q := s.queue k
  s.setQueue k { q with tail := some proc, count := q.count + 1 }

def queuePop (s : Pool ι κ) (k : κ) : Option ι × Pool ι κ :=
  let q := s.queue k
  match q.head with
  | none => (none, s)
  | some proc =>
    let q := { q with head := s.next proc }
    let q := if q.head = none then { q with tail := none } else q
    let s := s.setNext proc none
    (some proc, s.setQueue k { q with count := q.count - 1 })

def queueRemoveLoop (k : κ) (proc : ι) (s : Pool ι κ) :
    Nat → Option ι → Option ι → Option (Pool ι κ)
  | 0, _, _ => none
  | _ + 1, _, none => some s
  | fuel + 1, prev, some curr =>
    if curr = proc then
      let q := s.queue k
      let s :=
        match prev with
        | some pr => s.setNext pr (s.next curr)
        | none => s.setQueue k { q with head := s.next curr }
      let q := s.queue k
      let q := if s.next curr = none then { q with tail := prev } else q
      let s := s.setNext curr none
      some (s.setQueue k { q with count := q.count - 1 })
    else
      queueRemoveLoop k proc s fuel (some curr) (s.next curr)

def queueRemove (fuel : Nat) (s : Pool ι κ) (k : κ) (proc : ι) : Option (Pool ι κ) :=
  queueRemoveLoop k proc s fuel none (s.queue k).head

def queuePeek (s : Pool ι κ) (k : κ) : Option ι := (s.queue k).head

def queueContainsLoop (proc : ι) (s : Pool ι κ) : Nat → Option ι → Option Bool
  | 0, _ => none
  | _ + 1, none => some false
  | fuel + 1, some curr =>
    if curr = proc then some true
    else queueContainsLoop proc s fuel (s.next curr)

def queueContains (fuel : Nat) (s : Pool ι κ) (k : κ) (proc : ι) : Option Bool :=
  queueContainsLoop proc s fuel (s.queue k).head

end

/-! ### Queues as lists -/

section

variable {ι κ : Type*}

/-- The queue holds the list `l`. -/
structure Represents (next : ι → Option ι) (q : Queue ι) (l : List ι) : Prop where
  path : Path next q.head l none
  tail : q.tail = l.getLast?
  count : q.count = l.length

/-- The queues that satisfy `A` hold the lists `l`, without sharing. -/
structure PoolRep (s : Pool ι κ) (A : κ → Prop) (l : κ → List ι) : Prop where
  rep : ∀ k, A k → Represents s.next (s.queue k) (l k)
  apart : ∀ k k', A k → A k' → k ≠ k' → ∀ x, x ∈ l k → x ∉ l k'

variable {A : κ → Prop} {s : Pool ι κ} {l : κ → List ι} {k : κ} {fuel : Nat} {x : ι}

theorem Represents.congr {next next' : ι → Option ι} {q : Queue ι} {l : List ι}
    (h : Represents next q l) (hn : ∀ x ∈ l, next' x = next x) : Represents next' q l :=
  ⟨path_congr hn h.path, h.tail, h.count⟩

theorem PoolRep.replace [DecidableEq κ] {s' : Pool ι κ} {lk : List ι}
    (h : PoolRep s A l) (hk : A k → Represents s'.next (s'.queue k) lk)
    (hq : ∀ k', k' ≠ k → s'.queue k' = s.queue k')
    (hn : ∀ k', A k' → k' ≠ k → ∀ x ∈ l k', s'.next x = s.next x)
    (hnew : ∀ k', A k' → k' ≠ k → ∀ x ∈ lk, x ∉ l k') : PoolRep s' A (update l k lk) where
  rep := by
    intro k' hk'
    by_cases he : k' = k
    · subst he
      simpa using hk hk'
    · rw [update_of_ne he, hq k' he]
      exact (h.rep k' hk').congr (hn k' hk' he)
  apart := by
    intro k1 k2 h1 h2 hne x hx
    by_cases he1 : k1 = k
    · subst he1
      rw [update_self] at hx
      rw [update_of_ne (Ne.symm hne)]
      exact hnew k2 h2 (Ne.symm hne) x hx
    rw [update_of_ne he1] at hx
    by_cases he2 : k2 = k
    · grind
    · rw [update_of_ne he2]
      exact h.apart k1 k2 h1 h2 hne x hx

theorem queueContains_eq [DecidableEq ι] (h : PoolRep s A l) (hA : A k) (x : ι)
    (hfuel : (l k).length < fuel) : queueContains fuel s k x = some (decide (x ∈ l k)) := by
  have hloop : ∀ (ys : List ι) (p : Option ι) (fuel : Nat),
      Path s.next p ys none → ys.length < fuel →
        queueContainsLoop x s fuel p = some (decide (x ∈ ys)) := by
    intro ys
    induction ys with
    | nil =>
      intro p fuel hp hf
      obtain ⟨j, rfl⟩ : ∃ j, fuel = j + 1 := ⟨fuel - 1, by omega⟩
      simp only [path_nil] at hp
      simp [hp, queueContainsLoop]
    | cons y ys ih =>
      intro p fuel hp hf
      obtain ⟨j, rfl⟩ : ∃ j, fuel = j + 1 := ⟨fuel - 1, by omega⟩
      obtain ⟨rfl, hrest⟩ := hp
      by_cases hy : y = x
      · simp [queueContainsLoop, hy]
      · have hxy : ¬ x = y := fun he => hy he.symm
        simp [queueContainsLoop, hy, hxy, ih _ j hrest (by simpa using hf)]
  exact hloop (l k) _ fuel (h.rep k hA).path hfuel

theorem foldl_queueInit_rep [DecidableEq κ] {ks : List κ} (s : Pool ι κ) (hA : ∀ k, A k → k ∈ ks) :
    PoolRep (ks.foldl queueInit s) A fun _ => [] := by
  have hqueue : ∀ (ks : List κ) (s : Pool ι κ) (k : κ), k ∈ ks ∨ s.queue k = ⟨none, none, 0⟩ →
        (ks.foldl queueInit s).queue k = ⟨none, none, 0⟩ := by
    intro ks
    induction ks with
    | nil => simp
    | cons k' ks ih =>
      intro s k hk
      apply ih
      by_cases he : k = k'
      · right
        simp [queueInit, Pool.setQueue, he]
      refine (hk.imp_left fun hm => ?_).imp_right fun hq => ?_
      · exact (List.mem_cons.mp hm).resolve_left he
      · simpa [queueInit, Pool.setQueue, update_of_ne he] using hq
  refine ⟨?_, by simp⟩
  intro k hk
  rw [hqueue ks s k (.inl (hA k hk))]
  exact ⟨rfl, rfl, rfl⟩

variable [DecidableEq ι] [DecidableEq κ]

theorem queuePush_fields (s : Pool ι κ) (k : κ) (x : ι) :
    (queuePush s k x).next = (match (s.queue k).tail with
        | some t => update (update s.next x none) t (some x)
        | none => update s.next x none) ∧
    (queuePush s k x).queue = update s.queue k ⟨(match (s.queue k).tail with
          | some _ => (s.queue k).head
          | none => some x), some x, (s.queue k).count + 1⟩ := by
  unfold queuePush
  cases ht : (s.queue k).tail with
  | none => simp [Pool.setNext, Pool.setQueue, ht]
  | some t => simp [Pool.setNext, Pool.setQueue, ht]

theorem queuePush_rep (h : PoolRep s A l) (hA : A k) (hx : ∀ k', A k' → x ∉ l k') :
    PoolRep (queuePush s k x) A (update l k (l k ++ [x])) := by
  obtain ⟨hnext, hqueue⟩ := queuePush_fields s k x
  have hr := h.rep k hA
  apply h.replace
  · intro _
    rw [hqueue, update_self]
    rcases List.eq_nil_or_concat (l k) with hl | ⟨ys, t, hl⟩
    · have htail : (s.queue k).tail = none := by
        rw [hr.tail, hl]
        rfl
      have hcount := hr.count
      rw [hl] at hcount ⊢
      simp only [htail] at hnext ⊢
      refine ⟨?_, by simp, by simp [hcount]⟩
      simp [hnext]
    have hl' : l k = ys ++ [t] := by simpa using hl
    have htail : (s.queue k).tail = some t := by
      rw [hr.tail, hl']
      simp
    simp only [htail] at hnext ⊢
    have hpath := hr.path
    have hnd := path_nodup hpath
    have hxl := hx k hA
    rw [hl'] at hpath hnd hxl
    have hcount := hr.count
    rw [hl'] at hcount ⊢
    have htys : t ∉ ys := by grind
    have hstep : Path (update s.next x none) (s.queue k).head (ys ++ [t]) none := by
      apply path_congr _ hpath
      intro y hy
      have hne : y ≠ x := fun he => hxl (he ▸ hy)
      exact update_of_ne hne _ _
    have hredirect := path_redirect htys hstep (some x)
    refine ⟨?_, by simp, by simp at hcount ⊢; omega⟩
    rw [hnext]
    refine path_append.mpr ⟨some x, hredirect, rfl, ?_⟩
    have htx : x ≠ t := fun he => hxl (by simp [he])
    simp [update_of_ne htx]
  · intro k' hk'
    rw [hqueue, update_of_ne hk']
  · intro k' hk' hne y hy
    have hyx : y ≠ x := fun he => hx k' hk' (he ▸ hy)
    rw [hnext]
    cases htail : (s.queue k).tail with
    | none => exact update_of_ne hyx _ _
    | some t =>
      have ht : t ∈ l k := by
        have := hr.tail
        rw [htail] at this
        exact List.mem_of_getLast? this.symm
      have hyt : y ≠ t := fun he => h.apart k k' hA hk' (Ne.symm hne) t ht (he ▸ hy)
      simp [update_of_ne hyt, update_of_ne hyx]
  · intro k' hk' hne y hy
    rcases List.mem_append.mp hy with hy | hy
    · exact h.apart k k' hA hk' (Ne.symm hne) y hy
    · grind

theorem queuePop_nil (h : PoolRep s A l) (hA : A k) (hl : l k = []) : queuePop s k = (none, s) := by
  have hpath := (h.rep k hA).path
  rw [hl, path_nil] at hpath
  simp [queuePop, hpath]

theorem queuePop_cons {xs : List ι} (h : PoolRep s A l) (hA : A k) (hl : l k = x :: xs) :
    (queuePop s k).1 = some x ∧ PoolRep (queuePop s k).2 A (update l k xs) ∧
      (queuePop s k).2.next = update s.next x none := by
  have hr := h.rep k hA
  have hpath := hr.path
  have hcount := hr.count
  have htail := hr.tail
  rw [hl] at hpath hcount htail
  have hnd := path_nodup hpath
  obtain ⟨hhead, hrest⟩ := hpath
  have hx : x ∉ xs := (List.nodup_cons.mp hnd).1
  have hnext : (queuePop s k).2.next = update s.next x none := by
    simp [queuePop, hhead, Pool.setNext, Pool.setQueue]
  have hqueue : ∀ k', k' ≠ k → (queuePop s k).2.queue k' = s.queue k' := by
    intro k' hk'
    simp [queuePop, hhead, Pool.setNext, Pool.setQueue, hk']
  refine ⟨by simp [queuePop, hhead], ?_, hnext⟩
  apply h.replace
  · intro _
    have hpath' : Path (update s.next x none) (s.next x) xs none := by
      apply path_congr _ hrest
      intro y hy
      have hne : y ≠ x := fun he => hx (he ▸ hy)
      exact update_of_ne hne _ _
    simp only [queuePop, hhead, Pool.setNext, Pool.setQueue, update_self]
    cases xs with
    | nil =>
      have hnull : s.next x = none := hrest
      simp [hnull]
      exact ⟨rfl, rfl, by simp [hcount]⟩
    | cons y ys =>
      have hsome : s.next x = some y := hrest.1
      simp only [hsome] at hpath' ⊢
      refine ⟨hpath', ?_, ?_⟩
      · rw [htail]
        simp
      · simp [hcount]
  · exact hqueue
  · intro k' hk' hne y hy
    have hyx : y ≠ x := fun he => h.apart k k' hA hk' (Ne.symm hne) x (by simp [hl]) (he ▸ hy)
    rw [hnext, update_of_ne hyx]
  · intro k' hk' hne y hy
    exact h.apart k k' hA hk' (Ne.symm hne) y (by simp [hl, hy])

theorem unlink_rep {s' : Pool ι κ} {pre post : List ι} (h : PoolRep s A l)
    (hA : A k) (hl : l k = pre ++ x :: post) (hnext : s'.next = update (match pre.getLast? with
        | some t => update s.next t (s.next x)
        | none => s.next) x none)
    (hqueue : s'.queue = update s.queue k ⟨(match pre.getLast? with
          | some _ => (s.queue k).head
          | none => s.next x),
        (if s.next x = none then pre.getLast? else (s.queue k).tail), (s.queue k).count - 1⟩) :
    PoolRep s' A (update l k (pre ++ post)) ∧
      s'.next x = none ∧ ∀ y, y ∉ l k → s'.next y = s.next y := by
  have hr := h.rep k hA
  have hpath := hr.path
  have hcount := hr.count
  have htail := hr.tail
  rw [hl] at hpath hcount htail
  have hnd := path_nodup hpath
  obtain ⟨r, hpre, hrx, hpost⟩ := path_append.mp hpath
  have hxpre : x ∉ pre := by grind
  have hxpost : x ∉ post := by grind
  have hdisj : ∀ y ∈ pre, y ∉ post := by grind
  have hlast : ∀ t, pre.getLast? = some t → t ∈ pre := fun t ht => List.mem_of_getLast? ht
  have hother : ∀ y, y ≠ x → y ∉ pre → s'.next y = s.next y := by
    intro y hyx hy
    rw [hnext, update_of_ne hyx]
    cases ht : pre.getLast? with
    | none => rfl
    | some t => grind
  have houtside : ∀ y, y ∉ l k → s'.next y = s.next y := by grind
  refine ⟨?_, by rw [hnext, update_self], houtside⟩
  apply h.replace
  · intro _
    rw [hqueue, update_self]
    have hpost' : Path s'.next (s.next x) post none := by
      apply path_congr _ hpost
      intro y hy
      have hyx : y ≠ x := fun he => hxpost (he ▸ hy)
      exact hother y hyx (fun hm => hdisj y hm hy)
    refine ⟨?_, ?_, ?_⟩
    · -- With nodes before `x`, the last of them is redirected past it.
      rcases List.eq_nil_or_concat pre with hp | ⟨ys, t, hp⟩
      · subst hp
        simpa using hpost'
      · have hp' : pre = ys ++ [t] := by simpa using hp
        have hgl : pre.getLast? = some t := by simp [hp']
        simp only [hgl] at hnext ⊢
        refine path_append.mpr ⟨s.next x, ?_, hpost'⟩
        have hndp : (ys ++ [t]).Nodup := by grind
        have htys : t ∉ ys := by grind
        rw [hp'] at hpre hxpre ⊢
        have hred := path_redirect htys hpre (s.next x)
        apply path_congr _ hred
        intro y hy
        have hyx : y ≠ x := fun he => hxpre (he ▸ hy)
        rw [hnext, update_of_ne hyx]
    · cases post with
      | nil =>
        have hnull : s.next x = none := hpost
        simp [hnull]
      | cons z zs =>
        have hsome : s.next x = some z := hpost.1
        simp only [hsome, reduceCtorEq, if_false]
        rw [htail]
        simp
    · grind
  · intro k' hk'
    rw [hqueue, update_of_ne hk']
  · intro k' hk' hne y hy
    exact houtside y fun hm => h.apart k k' hA hk' (Ne.symm hne) y hm hy
  · intro k' hk' hne y hy
    apply h.apart k k' hA hk' (Ne.symm hne) y
    rw [hl]
    rcases List.mem_append.mp hy with hy | hy <;> simp [hy]

/-- What `queue_remove` does to the links: `x` is unlinked if it is present, and
the links outside the queue stay. -/
structure Unlinks (s s' : Pool ι κ) (x : ι) (lk : List ι) : Prop where
  absent : x ∉ lk → s' = s
  present : x ∈ lk → s'.next x = none
  outside : ∀ y, y ∉ lk → s'.next y = s.next y

theorem queueRemoveLoop_rep {pre rest : List ι} {curr : Option ι}
    (h : PoolRep s A l) (hA : A k) (hl : l k = pre ++ rest) (hx : x ∉ pre)
    (hcurr : Path s.next curr rest none) (hfuel : rest.length < fuel) :
    ∃ s', queueRemoveLoop k x s fuel pre.getLast? curr = some s' ∧
      PoolRep s' A (update l k ((l k).erase x)) ∧ Unlinks s s' x (l k) := by
  induction rest generalizing pre curr fuel with
  | nil =>
    obtain ⟨j, rfl⟩ : ∃ j, fuel = j + 1 := ⟨fuel - 1, by omega⟩
    simp only [path_nil] at hcurr
    have hnot : x ∉ l k := by simpa [hl] using hx
    refine ⟨s, by simp [queueRemoveLoop, hcurr], ?_, fun _ => rfl,
      fun hm => absurd hm hnot, fun _ _ => rfl⟩
    rwa [List.erase_of_not_mem hnot, update_eq_self]
  | cons y ys ih =>
    obtain ⟨j, rfl⟩ : ∃ j, fuel = j + 1 := ⟨fuel - 1, by omega⟩
    obtain ⟨rfl, hrest⟩ := hcurr
    by_cases hy : y = x
    · subst hy
      have herase : (l k).erase y = pre ++ ys := by grind
      rw [herase]
      have hlast : ∀ t, pre.getLast? = some t → y ≠ t := by grind
      have hmem : y ∈ l k := by simp [hl]
      simp only [queueRemoveLoop, if_true]
      suffices hunlink : _ ∧ _ ∧ _ from
        ⟨_, rfl, hunlink.1, fun hno => absurd hmem hno, fun _ => hunlink.2.1, hunlink.2.2⟩
      refine unlink_rep h hA hl ?_ ?_
      · cases ht : pre.getLast? with
        | none => simp [Pool.setNext, Pool.setQueue]
        | some t => simp [Pool.setNext, Pool.setQueue]
      · cases ht : pre.getLast? with
        | none =>
          by_cases hn : s.next y = none
          · simp [Pool.setNext, Pool.setQueue, hn]
          · simp [Pool.setNext, Pool.setQueue, hn]
        | some t =>
          have hyt := hlast t ht
          by_cases hn : s.next y = none
          · simp [Pool.setNext, Pool.setQueue, hn, update_of_ne hyt]
          · simp [Pool.setNext, Pool.setQueue, hn, update_of_ne hyt]
    · have hpre : (pre ++ [y]).getLast? = some y := by simp
      have hx' : x ∉ pre ++ [y] := by
        simp only [List.mem_append, List.mem_singleton, not_or]
        exact ⟨hx, fun he => hy he.symm⟩
      obtain ⟨s', hs', hrep⟩ :=
        ih (by simp [hl]) hx' hrest (show ys.length < j by simpa using hfuel)
      refine ⟨s', ?_, hrep⟩
      rw [hpre] at hs'
      simp only [queueRemoveLoop, hy, if_false]
      exact hs'

theorem queueRemove_rep (x : ι) (h : PoolRep s A l) (hA : A k) (hfuel : (l k).length < fuel) :
    ∃ s', queueRemove fuel s k x = some s' ∧ PoolRep s' A (update l k ((l k).erase x)) ∧
      Unlinks s s' x (l k) := by
  have hl : l k = [] ++ l k := rfl
  exact queueRemoveLoop_rep h hA hl (by simp) (h.rep k hA).path hfuel

end

end AresOS.Process
