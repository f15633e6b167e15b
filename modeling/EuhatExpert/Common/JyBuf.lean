import EuhatExpert.Common.JyTcpSelector
import EuhatExpert.Machinery.Ownership

/-!
# Common/JyBuf — the blocks of a pool, and who has them

`JyBufPool::get` lends a block of `pool_`, or a new one; `ret` takes a block back, and deletes the oldest of
those it keeps when they become more than `maxReserved_`.  `Lends pool lent`: the blocks that were not deleted
are those in `pool_` and those of `lent`, every one of them once.  Under it `ret` never deletes a block that is
gone, and neither call, nor writing to one's own block, changes what is in the blocks of anybody else.
-/

namespace EuhatExpert

open Machinery Function

/-- `JyBufPool`, with the memory its blocks are in: what stands at the addresses of the blocks that were made
with `new` and not deleted. -/
structure BlockPool (U : ℕ) where
  heap : ℕ → Option (Block U)
  pool_ : List ℕ
  maxReserved_ : ℕ

namespace BlockPool

variable {U : ℕ}

/-- `JyBufPool()`. -/
def new (U maxReserved_ : ℕ) : BlockPool U := ⟨fun _ => none, [], maxReserved_⟩

/-- `get`: the block it gives, where `new` would give the one at `p`, with `junk` in it. -/
def get (p : ℕ) (junk : Block U) (pool : BlockPool U) : ℕ × BlockPool U :=
  match pool.pool_ with
  | [] => (p, { pool with heap := update pool.heap p (some junk) })
  | front :: rest => (front, { pool with pool_ := rest })

/-- `delete[]`. -/
def delete (p : ℕ) (pool : BlockPool U) : Except Fault (BlockPool U) :=
  if (pool.heap p).isSome then .ok { pool with heap := update pool.heap p none } else .error .freed

/-- `ret`. -/
def ret (p : ℕ) (pool : BlockPool U) : Except Fault (BlockPool U) :=
  match pool.pool_ ++ [p] with
  | [] => .ok pool
  | front :: rest =>
    if pool.maxReserved_ < (front :: rest).length then { pool with pool_ := rest }.delete front
    else .ok { pool with pool_ := front :: rest }

/-- The block at an address is written to. -/
def write (p : ℕ) (block : Block U) (pool : BlockPool U) : BlockPool U :=
  { pool with heap := update pool.heap p (some block) }

theorem maxReserved_get {p q : ℕ} {junk : Block U} {pool pool' : BlockPool U} (h : pool.get p junk = (q, pool')) :
    pool'.maxReserved_ = pool.maxReserved_ := by
  rw [get] at h
  split at h
  all_goals exact (congrArg (fun x => x.2.maxReserved_) h).symm

theorem maxReserved_ret {p : ℕ} {pool pool' : BlockPool U} (h : pool.ret p = .ok pool') :
    pool'.maxReserved_ = pool.maxReserved_ := by
  rw [ret] at h
  split at h
  · exact (congrArg maxReserved_ (Except.ok.inj h)).symm
  · split_ifs at h
    · rw [delete] at h
      split_ifs at h
      exact (congrArg maxReserved_ (Except.ok.inj h)).symm
    · exact (congrArg maxReserved_ (Except.ok.inj h)).symm

/-- The blocks of `pool_` and of `lent` are the ones there are, and `pool_` has no more than it may. -/
structure Lends (pool : BlockPool U) (lent : Multiset ℕ) : Prop where
  owns : Owns pool.heap (pool.pool_ + lent)
  reserved : pool.pool_.length ≤ pool.maxReserved_

theorem lends_new (U maxReserved_ : ℕ) : (new U maxReserved_).Lends 0 where
  owns := ⟨Multiset.nodup_zero, by simp [new]⟩
  reserved := Nat.zero_le _

namespace Lends

variable {pool pool' : BlockPool U} {lent lent' : Multiset ℕ} {p q : ℕ} {junk : Block U}

theorem of_eq (h : pool.Lends lent) (heq : lent = lent') : pool.Lends lent' := heq ▸ h

theorem isSome (h : pool.Lends (p ::ₘ lent)) : (pool.heap p).isSome :=
  h.owns.isSome (Multiset.mem_add.mpr (.inr (Multiset.mem_cons_self p lent)))

/-- **Lending**: a block nobody has, in which nobody's bytes are changed. -/
theorem get (h : pool.Lends lent) (hp : pool.heap p = none) (hget : pool.get p junk = (q, pool')) :
    pool'.Lends (q ::ₘ lent) ∧ SameAt pool.heap pool'.heap lent := by
  obtain ⟨heap, list, maxReserved_⟩ := pool
  cases list with
  | nil =>
    obtain ⟨rfl, rfl⟩ := Prod.mk.inj hget
    have howns := h.owns
    rw [Multiset.coe_nil, zero_add] at howns
    exact ⟨⟨by simpa using howns.alloc hp junk, h.reserved⟩, howns.sameAt_alloc hp _⟩
  | cons front rest =>
    obtain ⟨rfl, rfl⟩ := Prod.mk.inj hget
    refine ⟨⟨?_, (Nat.le_succ _).trans h.reserved⟩, .refl _ _⟩
    have howns := h.owns
    rwa [← Multiset.cons_coe, Multiset.cons_add, ← Multiset.add_cons] at howns

/-- **Taking back**: nothing is deleted twice, and nobody's bytes are changed. -/
theorem ret (h : pool.Lends (p ::ₘ lent)) :
    ∃ pool', pool.ret p = .ok pool' ∧ pool'.Lends lent ∧ SameAt pool.heap pool'.heap lent := by
  obtain ⟨heap, list, maxReserved_⟩ := pool
  obtain ⟨front, rest, hlist⟩ : ∃ front rest, list ++ [p] = front :: rest :=
    List.exists_cons_of_ne_nil (List.append_ne_nil_of_right_ne_nil _ (List.cons_ne_nil _ _))
  have hall : (list + p ::ₘ lent : Multiset ℕ) = front ::ₘ (rest + lent) := by
    rw [Multiset.add_cons, ← Multiset.cons_add, ← Multiset.cons_add, Multiset.cons_coe, Multiset.cons_coe, ← hlist,
      Multiset.coe_eq_coe.mpr (List.perm_append_singleton p list)]
  have howns : Owns heap (front ::ₘ (rest + lent)) := hall ▸ h.owns
  have hlen : rest.length = list.length := by
    have := congrArg List.length hlist
    simpa using this.symm
  simp only [BlockPool.ret, hlist]
  split_ifs with hmore
  · refine ⟨_, if_pos (howns.isSome (Multiset.mem_cons_self _ _)), ⟨howns.free, hlen.trans_le h.reserved⟩, ?_⟩
    exact (howns.sameAt_update none).mono (Multiset.le_add_left _ _)
  · refine ⟨_, rfl, ⟨?_, not_lt.mp hmore⟩, .refl _ _⟩
    rwa [← Multiset.cons_coe, Multiset.cons_add]

/-- **Writing** to one's own block. -/
theorem write (h : pool.Lends (p ::ₘ lent)) (block : Block U) :
    (pool.write p block).Lends (p ::ₘ lent) ∧ SameAt pool.heap (pool.write p block).heap lent := by
  have howns := h.owns
  rw [Multiset.add_cons] at howns
  exact ⟨⟨by simpa [BlockPool.write] using howns.write block, h.reserved⟩,
    (howns.sameAt_update (some block)).mono (Multiset.le_add_left _ _)⟩

end Lends

end BlockPool

end EuhatExpert
