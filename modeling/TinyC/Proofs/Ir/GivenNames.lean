import TinyC.Proofs.Ir.Numbering

/-!
# Names given out

A table starts empty and gives out names for any bases, one after the other; a base may look like a
name with a number. A table `Lists` the names given out so far, which every further name keeps. Main
statement: a new base is given out as it is, and a base in use with the least free number above its
last one. Since the table is finite, there are at most as many numbers to try as names given out.
-/

namespace TinyC.Ir

theorem freshSuffix_isLeast (names : List String) (base : String) (n : Nat) :
    IsLeast {k | n ≤ k ∧ suffixed base k ∉ names} (freshSuffix names base n) := by
  refine ⟨⟨le_freshSuffix names base n, suffixed_freshSuffix_not_mem names base n⟩, ?_⟩
  rintro k ⟨hle, hk⟩
  fun_induction freshSuffix names base n with
  | case1 names n hn ih =>
    -- The number tried is taken, so a free one comes behind it, whatever is struck.
    have hne : k ≠ n := by
      rintro rfl
      exact hk hn
    exact ih (by omega) fun hmem => hk (List.mem_of_mem_erase hmem)
  | case2 names n hn => exact hle

theorem suffixed_ne (base : String) (n : Nat) : suffixed base n ≠ base := by
  intro h
  have hlist := congrArg String.toList h
  rw [toList_suffixed] at hlist
  simp at hlist

namespace NameTable

/-- Give out a name for each base, in order. The result is the names and the table behind them. -/
def freshAll (t : NameTable) : List String → List String × NameTable
  | [] => ([], t)
  | base :: bases =>
    ((t.fresh base).1 :: ((t.fresh base).2.freshAll bases).1, ((t.fresh base).2.freshAll bases).2)

/-- The names in use are those given out, and none is given out twice. -/
structure Lists (t : NameTable) (given : List String) : Prop where
  mem_names : ∀ x, x ∈ t.names ↔ x ∈ given
  nodup : given.Nodup

theorem mem_names_fresh_iff {t : NameTable} {base x : String} :
    x ∈ (t.fresh base).2.names ↔ x ∈ t.names ∨ x = (t.fresh base).1 := by
  cases h : t.last? base with
  | none => simp [fresh, h, or_comm]
  | some n =>
    -- The base is entered again with its new number, but it is in use already.
    have hbase : base ∈ t.names := by
      by_contra hnot
      rw [last?_eq_none_iff.mpr hnot] at h
      cases h
    simp only [fresh, h, names_insert, List.mem_cons]
    constructor
    · rintro (rfl | rfl | hx)
      · exact .inr rfl
      · exact .inl hbase
      · exact .inl hx
    · rintro (hx | rfl)
      · exact .inr (.inr hx)
      · exact .inl rfl

namespace Lists

variable {t : NameTable} {given : List String} {base : String} {n : Nat}

theorem empty : Lists .empty [] := ⟨fun _ => .rfl, List.nodup_nil⟩

theorem fresh_not_mem (h : t.Lists given) (base : String) : (t.fresh base).1 ∉ given :=
  fun hmem => t.fresh_not_mem base ((h.mem_names _).mpr hmem)

theorem fresh (h : t.Lists given) (base : String) :
    (t.fresh base).2.Lists (given ++ [(t.fresh base).1]) where
  mem_names x := by
    rw [mem_names_fresh_iff, h.mem_names, List.mem_append, List.mem_singleton]
  nodup := by
    rw [List.nodup_append_comm, List.singleton_append, List.nodup_cons]
    exact ⟨h.fresh_not_mem base, h.nodup⟩

theorem freshAll (h : t.Lists given) (bases : List String) :
    (t.freshAll bases).2.Lists (given ++ (t.freshAll bases).1) := by
  induction bases generalizing t given with
  | nil => simpa [NameTable.freshAll] using h
  | cons base bases ih => simpa [NameTable.freshAll] using ih (h.fresh base)

theorem last?_eq_none_iff (h : t.Lists given) : t.last? base = none ↔ base ∉ given := by
  rw [NameTable.last?_eq_none_iff, h.mem_names]

/-- Up to the least free number all names are in use, and the base is as well. -/
theorem le_of_isLeast (h : t.Lists given) (hbase : base ∈ given) {k : Nat}
    (hk : IsLeast {k | n < k ∧ suffixed base k ∉ t.names} k) : k ≤ n + given.length := by
  have htaken : ∀ j ∈ List.range' (n + 1) (k - n - 1), suffixed base j ∈ given := by
    intro j hj
    rw [List.mem_range'_1] at hj
    by_contra hnot
    have hle := hk.2 ⟨by omega, fun hmem => hnot ((h.mem_names _).mp hmem)⟩
    omega
  have hsub : base :: (List.range' (n + 1) (k - n - 1)).map (suffixed base) ⊆ given :=
    List.cons_subset.mpr ⟨hbase, List.forall_mem_map.mpr htaken⟩
  have hnodup : (base :: (List.range' (n + 1) (k - n - 1)).map (suffixed base)).Nodup := by
    refine List.nodup_cons.mpr ⟨?_, (List.nodup_range' ..).map (suffixed_injective base)⟩
    rw [List.mem_map]
    rintro ⟨j, -, hj⟩
    exact suffixed_ne base j hj
  have hlength := (List.subperm_of_subset hnodup hsub).length_le
  have hlt : n < k := hk.1.1
  simp only [List.length_cons, List.length_map, List.length_range'] at hlength
  omega

end Lists

/-- A base in use is given out with the least free number above its last one, which becomes its last
one. -/
theorem fresh_of_last? {t : NameTable} {base : String} {n : Nat} (h : t.last? base = some n) :
    ∃ k, IsLeast {k | n < k ∧ suffixed base k ∉ t.names} k ∧
      (t.fresh base).1 = suffixed base k ∧ (t.fresh base).2.last? base = some k := by
  refine ⟨freshSuffix t.names base (n + 1), freshSuffix_isLeast t.names base (n + 1), ?_, ?_⟩
  · simp only [fresh, h]
  · simp only [fresh, h, last?_insert, if_neg (suffixed_ne base _).symm, if_true]

/-- Whatever bases names have been given out for, the next one is new: the base itself if it has not
been given out, and otherwise the base with the least free number above its last one, which is found
after at most as many tries as there are names. The table holds exactly the names given out, before
and after. -/
theorem fresh_freshAll (bases : List String) (base : String) :
    let given := (empty.freshAll bases).1
    let t := (empty.freshAll bases).2
    (∀ x, x ∈ t.names ↔ x ∈ given) ∧
    (t.fresh base).1 ∉ given ∧
    (base ∉ given → (t.fresh base).1 = base ∧ (t.fresh base).2.last? base = some 0) ∧
    (base ∈ given → ∃ n k, t.last? base = some n ∧
      IsLeast {k | n < k ∧ suffixed base k ∉ t.names} k ∧ k ≤ n + given.length ∧
      (t.fresh base).1 = suffixed base k ∧ (t.fresh base).2.last? base = some k) ∧
    ∀ x, x ∈ (t.fresh base).2.names ↔ x ∈ given ∨ x = (t.fresh base).1 := by
  intro given t
  have hlists : t.Lists given := Lists.empty.freshAll bases
  refine ⟨hlists.mem_names, hlists.fresh_not_mem base, ?_, ?_, ?_⟩
  · intro hnew
    have hlast := hlists.last?_eq_none_iff.mpr hnew
    simp [fresh, hlast, last?_insert]
  · intro hbase
    obtain ⟨n, hlast⟩ := Option.ne_none_iff_exists'.mp fun hnone =>
      hlists.last?_eq_none_iff.mp hnone hbase
    obtain ⟨k, hleast, hname, hcount⟩ := fresh_of_last? hlast
    exact ⟨n, k, hlast, hleast, hlists.le_of_isLeast hbase hleast, hname, hcount⟩
  · intro x
    rw [mem_names_fresh_iff, hlists.mem_names]

-- A number that is taken by a base of its own is passed over, and that base is numbered in turn.
example : (empty.freshAll ["a", "a.2", "a", "a", "a.2"]).1 =
    ["a", "a.2", "a.1", "a.3", "a.2.1"] := by decide +kernel

end NameTable

end TinyC.Ir
