import Chase.Core.Parallel
import Chase.Core.Partition
import Chase.Graph.FirstUpdater

/-!
# The degrees of merged addresses

`_address_rank` orders the addresses by their degrees: the in-degree is to be the sum of the degrees
of the read units and the out-degree the sum of the degrees of the write units (`Address.Exact`).
`construct` and the main branch of `Address::merge` keep it so. The branch for two addresses with an
updater drops the units of the other address, but adds the other in-degree and subtracts the degree
of the *write* unit of its first updater. So the in-degree stays exact only if these two numbers are
equal, and the subtraction underflows when the second one is too large. The degrees are exact along
a tree of merges exactly when every merge of it is balanced (`degrees_exact_iff`).
-/

namespace Chase.Graph

open AddressBasedConflictGraph TreeMerge

/-- The sum of the degrees of units. -/
def degrees (us : List TxUnit) : Nat := (us.map (·.wrDependencies)).sum

namespace Address

/-- The degrees of an address are the sums of the degrees of its units. -/
structure Exact (a : Address) : Prop where
  inDegree : a.inDegree = degrees a.readUnits.units
  outDegree : a.outDegree = degrees a.writeUnits.units

/-- An address as `construct` makes it: exact, only write units are co-located, and the flag says
whether one of them is. -/
structure Sound (a : Address) : Prop extends a.Exact where
  reads : ∀ u ∈ a.readUnits.units, u.coLocated = false
  flag : a.firstUpdaterFlag = a.writeUnits.units.any (·.coLocated)

/-! ## Checked merging -/

/-- `Address.unwind` with checked arithmetic: `none` is an addition that overflows or a subtraction
that underflows. -/
def unwind? (units : List TxUnit) (otherInDegree : Nat) (a : Address) (c : Cells) :
    Option (Address × Cells) :=
  match units.find? (·.coLocated) with
  | some u =>
    if a.inDegree + otherInDegree < 2 ^ 32 ∧ u.wrDependencies ≤ a.inDegree + otherInDegree then
      some ({ a with inDegree := a.inDegree + otherInDegree - u.wrDependencies }, c.abort u.tx)
    else none
  | none => some (a, c)

/-- `Address::merge` with checked arithmetic. -/
def merge? (a other : Address) (c : Cells) : Option (Address × Cells) :=
  if a.firstUpdaterFlag && other.firstUpdaterFlag then
    (a.unwind? other.readUnits.units other.inDegree c).bind fun r =>
      r.1.unwind? other.writeUnits.units other.inDegree r.2
  else if a.inDegree + other.inDegree < 2 ^ 32 ∧ a.outDegree + other.outDegree < 2 ^ 32 then
    some (other.join a, c)
  else none

theorem wrappingSub_eq {x y : Nat} (hx : x < 2 ^ 32) (hy : y ≤ x) : wrappingSub x y = x - y := by
  rw [wrappingSub, Nat.mod_eq_of_lt (a := y) (by omega)]
  omega

/-- Where the checked arithmetic does not fail, the wrapping one gives the same. -/
theorem unwind_eq_of_unwind? {units : List TxUnit} {n : Nat} {a : Address} {c : Cells}
    {r : Address × Cells} (h : a.unwind? units n c = some r) : a.unwind units n c = r := by
  rw [unwind?] at h
  rw [unwind]
  cases hfind : units.find? (·.coLocated) with
  | some u =>
    rw [hfind] at h
    dsimp only at h ⊢
    split at h
    · rename_i hfits
      rw [wrappingSub_eq hfits.1 hfits.2]
      exact Option.some.inj h
    · cases h
  | none =>
    rw [hfind] at h
    exact Option.some.inj h

/-- Where the arithmetic does not fail, it is the one of the wrapping numbers. -/
theorem merge_eq_of_merge? {a b : Address} {c : Cells} {r : Address × Cells}
    (h : a.merge? b c = some r) : a.merge b c = r := by
  rw [merge?] at h
  split at h
  · rename_i hflags
    obtain ⟨r', hr', hr⟩ := Option.bind_eq_some_iff.1 h
    rw [merge, if_pos hflags]
    dsimp only
    rw [unwind_eq_of_unwind? hr']
    exact unwind_eq_of_unwind? hr
  · rename_i hflags
    split at h
    · rw [merge_eq_join (by simpa using hflags)]
      exact Option.some.inj h
    · cases h

/-! ## Balanced merges -/

/-- What the arithmetic of a merge asks for: the sums fit into 32 bits, and when both addresses have
an updater, the in-degree of the other one is the degree of the first co-located write unit there.
-/
def Balanced (a b : Address) : Prop :=
  a.inDegree + b.inDegree < 2 ^ 32 ∧
    if a.firstUpdaterFlag && b.firstUpdaterFlag then
      (b.writeUnits.units.find? (·.coLocated)).map (·.wrDependencies) = some b.inDegree
    else a.outDegree + b.outDegree < 2 ^ 32

/-- The degrees of units add up. -/
theorem degrees_append (us us' : List TxUnit) : degrees (us ++ us') = degrees us + degrees us' := by
  rw [degrees, List.map_append, List.sum_append, degrees, degrees]

/-- A join of sound addresses is sound. -/
theorem Sound.join {a b : Address} (ha : a.Sound) (hb : b.Sound) : (b.join a).Sound where
  inDegree := by
    rw [Address.join, degrees_append, ha.inDegree, hb.inDegree]
  outDegree := by
    rw [Address.join, degrees_append, ha.outDegree, hb.outDegree]
  reads u hu := by
    rcases List.mem_append.1 hu with hu | hu
    · exact ha.reads u hu
    · exact hb.reads u hu
  flag := by
    rw [Address.join, List.any_append, ha.flag, hb.flag]

section

variable {a b : Address} (ha : a.Sound) (hb : b.Sound) (c : Cells)

include hb

/-- A checked merge of two addresses with an updater: the first updater of the other one is taken
off. -/
theorem merge?_of_flags (hflags : (a.firstUpdaterFlag && b.firstUpdaterFlag) = true) :
    ∃ u, b.writeUnits.units.find? (·.coLocated) = some u ∧
      a.merge? b c =
        if a.inDegree + b.inDegree < 2 ^ 32 ∧ u.wrDependencies ≤ a.inDegree + b.inDegree then
          some ({ a with inDegree := a.inDegree + b.inDegree - u.wrDependencies }, c.abort u.tx)
        else none := by
  have hreads : b.readUnits.units.find? (·.coLocated) = none :=
    List.find?_eq_none.2 fun u hu => by simp [hb.reads u hu]
  have hany : b.writeUnits.units.any (·.coLocated) = true := by
    rw [← hb.flag]
    exact (Bool.and_eq_true_iff.1 hflags).2
  obtain ⟨u, hu⟩ := Option.isSome_iff_exists.1 (List.find?_isSome.2 (List.any_eq_true.1 hany))
  refine ⟨u, hu, ?_⟩
  rw [merge?, if_pos hflags, unwind?, hreads, Option.bind_some, unwind?, hu]

include ha

/-- A merge does not fail and stays exact exactly when it is balanced. -/
theorem merge?_exact_iff : (∃ r, a.merge? b c = some r ∧ r.1.Exact) ↔ a.Balanced b := by
  rw [Balanced]
  cases hflags : a.firstUpdaterFlag && b.firstUpdaterFlag with
  | true =>
    obtain ⟨u, hu, hmerge⟩ := merge?_of_flags hb c hflags
    rw [hmerge, hu, if_pos rfl, Option.map_some, Option.some_inj]
    constructor
    · rintro ⟨r, hr, hexact⟩
      split at hr
      · rename_i hfits
        obtain rfl := Option.some.inj hr
        have hin : a.inDegree + b.inDegree - u.wrDependencies = degrees a.readUnits.units :=
          hexact.inDegree
        rw [← ha.inDegree] at hin
        exact ⟨hfits.1, by omega⟩
      · cases hr
    · rintro ⟨hfits, hdegree⟩
      rw [if_pos ⟨hfits, by omega⟩]
      refine ⟨_, rfl, ?_, ha.outDegree⟩
      dsimp only
      rw [← ha.inDegree]
      omega
  | false =>
    rw [merge?, hflags, if_neg Bool.false_ne_true, if_neg Bool.false_ne_true]
    constructor
    · rintro ⟨r, hr, -⟩
      split at hr
      · rename_i hfits
        exact hfits
      · cases hr
    · intro hfits
      rw [if_pos hfits]
      exact ⟨_, rfl, (ha.join hb).toExact⟩

/-- A balanced merge gives an address as `construct` makes it. -/
theorem Balanced.sound (h : a.Balanced b) : (a.merge b c).1.Sound := by
  obtain ⟨r, hr, hexact⟩ := (merge?_exact_iff ha hb c).2 h
  rw [merge_eq_of_merge? hr]
  cases hflags : a.firstUpdaterFlag && b.firstUpdaterFlag with
  | true =>
    obtain ⟨u, hu, hmerge⟩ := merge?_of_flags hb c hflags
    rw [hmerge] at hr
    split at hr
    · obtain rfl := Option.some.inj hr
      exact ⟨hexact, ha.reads, ha.flag⟩
    · cases hr
  | false =>
    rw [merge?, hflags, if_neg Bool.false_ne_true] at hr
    split at hr
    · obtain rfl := Option.some.inj hr
      exact ha.join hb
    · cases hr

end

end Address

/-! ## Merging graphs -/

/-- The addresses of a graph are as `construct` makes them. -/
structure Sound (as : List Address) : Prop where
  nodup : (as.map (·.address)).Nodup
  sound : ∀ a ∈ as, a.Sound

/-- Every merge of two addresses of the same key is balanced. -/
def BalancedAll (as others : List Address) : Prop :=
  ∀ a ∈ as, ∀ b ∈ others, a.address = b.address → a.Balanced b

/-- An iteration of `merge` with checked arithmetic. -/
def mergeStep? (s : List Address × Cells) (address : Address) : Option (List Address × Cells) :=
  match getAddress s.1 address.address with
  | some mine =>
    (mine.merge? address s.2).map fun r =>
      (modifyAddress address.address (fun _ => r.1) s.1, r.2)
  | none => some (s.1 ++ [address], s.2)

/-- The address of a key is replaced. -/
theorem mem_modifyAddress_const {as : List Address} (hnodup : (as.map (·.address)).Nodup)
    {k : H256} (hk : k ∈ as.map (·.address)) (r x : Address) :
    x ∈ modifyAddress k (fun _ => r) as ↔ x = r ∨ x ∈ as ∧ x.address ≠ k := by
  induction as with
  | nil => cases hk
  | cons a as ih =>
    rw [List.map_cons, List.nodup_cons] at hnodup
    rw [modifyAddress]
    by_cases ha : a.address = k
    · have hne : x ∈ as → x.address ≠ k := by
        intro hx hxk
        exact hnodup.1 (ha.trans hxk.symm ▸ List.mem_map_of_mem hx)
      rw [if_pos ha, List.mem_cons, List.mem_cons]
      constructor
      · rintro (rfl | hx)
        · exact .inl rfl
        · exact .inr ⟨.inr hx, hne hx⟩
      · rintro (rfl | ⟨rfl | hx, hxk⟩)
        · exact .inl rfl
        · exact absurd ha hxk
        · exact .inr hx
    · rw [if_neg ha, List.mem_cons, List.mem_cons, ih hnodup.2 (mem_address_of_ne hk ha)]
      constructor
      · rintro (rfl | rfl | ⟨hx, hxk⟩)
        · exact .inr ⟨.inl rfl, ha⟩
        · exact .inl rfl
        · exact .inr ⟨.inr hx, hxk⟩
      · rintro (rfl | ⟨rfl | hx, hxk⟩)
        · exact .inr (.inl rfl)
        · exact .inl rfl
        · exact .inr (.inr ⟨hx, hxk⟩)

/-- An update that keeps the key keeps the keys. -/
theorem map_address_modifyAddress_const {as : List Address} {k : H256}
    (hk : k ∈ as.map (·.address)) {r : Address} (hr : r.address = k) :
    (modifyAddress k (fun _ => r) as).map (·.address) = as.map (·.address) := by
  induction as with
  | nil => cases hk
  | cons a as ih =>
    rw [modifyAddress]
    by_cases ha : a.address = k
    · rw [if_pos ha, List.map_cons, List.map_cons, hr, ha]
    · rw [if_neg ha, List.map_cons, List.map_cons, ih (mem_address_of_ne hk ha)]

/-- The two cases of an iteration: the key is new, or its address is merged. -/
theorem mergeStep_cases (as : List Address) (c : Cells) (b : Address) :
    (b.address ∉ as.map (·.address) ∧ mergeStep (as, c) b = (as ++ [b], c) ∧
        mergeStep? (as, c) b = some (as ++ [b], c)) ∨
      ∃ mine ∈ as, mine.address = b.address ∧ b.address ∈ as.map (·.address) ∧
        mergeStep (as, c) b =
          (modifyAddress b.address (fun _ => (mine.merge b c).1) as, (mine.merge b c).2) ∧
        mergeStep? (as, c) b =
          (mine.merge? b c).map fun r => (modifyAddress b.address (fun _ => r.1) as, r.2) := by
  rw [mergeStep, mergeStep?]
  cases hget : getAddress as b.address with
  | none =>
    refine .inl ⟨?_, rfl, rfl⟩
    intro hmem
    obtain ⟨a, ha, hab⟩ := List.mem_map.1 hmem
    exact absurd (List.find?_eq_none.1 hget a ha) (by simpa using hab)
  | some mine =>
    have hmine := List.mem_of_find?_eq_some hget
    have haddress : mine.address = b.address := by simpa using List.find?_some hget
    exact .inr ⟨mine, hmine, haddress, haddress ▸ List.mem_map_of_mem hmine, rfl, rfl⟩

/-- A step of the merge keeps the keys distinct. -/
theorem nodup_mergeStep {as : List Address} (hnodup : (as.map (·.address)).Nodup) (c : Cells)
    (b : Address) : ((mergeStep (as, c) b).1.map (·.address)).Nodup := by
  rcases mergeStep_cases as c b with ⟨hnew, hstep, -⟩ | ⟨mine, hmine, haddress, hk, hstep, -⟩
  · rw [hstep, List.map_append, List.map_singleton, ← List.concat_eq_append, List.nodup_concat]
    exact ⟨hnew, hnodup⟩
  · have hr := (Address.merge_address mine b c).trans haddress
    rw [hstep, map_address_modifyAddress_const hk hr]
    exact hnodup

/-- An address whose key is not in the other graph is there in the end. -/
theorem mem_foldl_mergeStep {others as : List Address} (c : Cells)
    (hnodup : (as.map (·.address)).Nodup) {x : Address} (hx : x ∈ as)
    (hnot : x.address ∉ others.map (·.address)) :
    x ∈ (others.foldl mergeStep (as, c)).1 := by
  induction others generalizing as c with
  | nil => exact hx
  | cons b others ih =>
    rw [List.map_cons, List.mem_cons, not_or] at hnot
    have hmem : x ∈ (mergeStep (as, c) b).1 := by
      rcases mergeStep_cases as c b with ⟨-, hstep, -⟩ | ⟨mine, hmine, haddress, hk, hstep, -⟩
      · rw [hstep]
        exact List.mem_append_left _ hx
      · rw [hstep]
        exact (mem_modifyAddress_const hnodup hk _ x).2 (.inr ⟨hx, hnot.1⟩)
    exact ih _ (nodup_mergeStep hnodup c b) hmem hnot.2

section

variable {as others : List Address} {b : Address}

/-- The first address of sound ones is sound, and no other one has its key. -/
theorem Sound.of_cons (h : Sound (b :: others)) :
    b.Sound ∧ b.address ∉ others.map (·.address) ∧ Sound others := by
  obtain ⟨hnot, hnodup⟩ := List.nodup_cons.1 (List.map_cons ▸ h.nodup)
  obtain ⟨hb, hothers⟩ := List.forall_mem_cons.1 h.sound
  exact ⟨hb, hnot, hnodup, hothers⟩

/-- A balanced iteration gives addresses as `construct` makes them. -/
theorem Sound.step (h : Sound as) (hb : b.Sound) (hbalanced : BalancedAll as [b]) (c : Cells) :
    Sound (mergeStep (as, c) b).1 := by
  refine ⟨nodup_mergeStep h.nodup c b, ?_⟩
  rcases mergeStep_cases as c b with ⟨-, hstep, -⟩ | ⟨mine, hmine, haddress, hk, hstep, -⟩
  · rw [hstep]
    intro x hx
    rcases List.mem_append.1 hx with hx | hx
    · exact h.sound x hx
    · rw [List.mem_singleton.1 hx]
      exact hb
  · rw [hstep]
    intro x hx
    rcases (mem_modifyAddress_const h.nodup hk _ x).1 hx with rfl | ⟨hx, -⟩
    · exact (hbalanced mine hmine b (List.mem_singleton_self _) haddress).sound (h.sound mine hmine)
        hb c
    · exact h.sound x hx

/-- The other addresses meet the same addresses before and after an iteration. -/
theorem balancedAll_mergeStep (hnodup : (as.map (·.address)).Nodup)
    (hnot : b.address ∉ others.map (·.address)) (c : Cells) :
    BalancedAll (mergeStep (as, c) b).1 others ↔ BalancedAll as others := by
  have hkey : ∀ {x b' : Address}, b' ∈ others → x.address = b'.address → x.address ≠ b.address := by
    intro x b' hb' hx hxb
    exact hnot (hxb ▸ hx ▸ List.mem_map_of_mem hb')
  rcases mergeStep_cases as c b with ⟨-, hstep, -⟩ | ⟨mine, hmine, haddress, hk, hstep, -⟩
  · rw [hstep]
    constructor
    · intro h x hx
      exact h x (List.mem_append_left _ hx)
    · intro h x hx b' hb' heq
      rcases List.mem_append.1 hx with hx | hx
      · exact h x hx b' hb' heq
      · rw [List.mem_singleton.1 hx] at heq
        exact absurd rfl (hkey hb' heq)
  · have hr := (Address.merge_address mine b c).trans haddress
    rw [hstep]
    constructor
    · intro h x hx b' hb' heq
      exact h x ((mem_modifyAddress_const hnodup hk _ x).2 (.inr ⟨hx, hkey hb' heq⟩)) b' hb' heq
    · intro h x hx b' hb' heq
      rcases (mem_modifyAddress_const hnodup hk _ x).1 hx with rfl | ⟨hx, -⟩
      · exact absurd hr (hkey hb' heq)
      · exact h x hx b' hb' heq

/-- A merge is balanced when that of the first address and that of the rest are. -/
theorem balancedAll_cons : BalancedAll as (b :: others) ↔
    BalancedAll as [b] ∧ BalancedAll as others := by
  simp only [BalancedAll, List.mem_cons, List.not_mem_nil, or_false, forall_eq_or_imp, forall_eq,
    forall_and]

/-- An iteration that is balanced does not fail. -/
theorem mergeStep?_of_balanced (h : Sound as) (hb : b.Sound) (hbalanced : BalancedAll as [b])
    (c : Cells) : mergeStep? (as, c) b = some (mergeStep (as, c) b) := by
  rcases mergeStep_cases as c b with ⟨-, hstep, hstep'⟩ | ⟨mine, hmine, haddress, -, hstep, hstep'⟩
  · rw [hstep, hstep']
  · obtain ⟨r, hr, -⟩ := (Address.merge?_exact_iff (h.sound mine hmine) hb c).2
      (hbalanced mine hmine b (List.mem_singleton_self _) haddress)
    rw [hstep, hstep', hr, Address.merge_eq_of_merge? hr]
    rfl

/-- An iteration that is not balanced fails, or leaves an address that is not exact. -/
theorem balanced_of_mergeStep? (h : Sound as) (hb : b.Sound) (c : Cells)
    (hstep : (mergeStep? (as, c) b).isSome)
    (hexact : ∀ x ∈ (mergeStep (as, c) b).1, x.address = b.address → x.Exact) :
    BalancedAll as [b] := by
  intro a ha b' hb' hab
  rw [List.mem_singleton.1 hb'] at hab ⊢
  rcases mergeStep_cases as c b with ⟨hnew, -⟩ | ⟨mine, hmine, haddress, hk, hmerge, hmerge?⟩
  · exact absurd (hab ▸ List.mem_map_of_mem ha) hnew
  · obtain rfl := eq_of_address_eq h.nodup ha hmine (hab.trans haddress.symm)
    rw [hmerge?, Option.isSome_map] at hstep
    obtain ⟨r, hr⟩ := Option.isSome_iff_exists.1 hstep
    refine (Address.merge?_exact_iff (h.sound a ha) hb c).1 ⟨r, hr, ?_⟩
    rw [hmerge] at hexact
    have hmem := (mem_modifyAddress_const h.nodup hk (a.merge b c).1 (a.merge b c).1).2 (.inl rfl)
    have hmerged := hexact _ hmem ((Address.merge_address a b c).trans haddress)
    rwa [Address.merge_eq_of_merge? hr] at hmerged

/-- The iterations do not fail and end with exact addresses exactly when they are balanced. -/
theorem foldlM_mergeStep?_iff (h : Sound as) (hothers : Sound others) (c : Cells) :
    (others.foldlM mergeStep? (as, c) = some (others.foldl mergeStep (as, c)) ∧
      ∀ x ∈ (others.foldl mergeStep (as, c)).1, x.Exact) ↔ BalancedAll as others := by
  induction others generalizing as c with
  | nil =>
    refine ⟨fun _ _ _ _ hb => (by cases hb), fun _ => ⟨rfl, ?_⟩⟩
    exact fun x hx => (h.sound x hx).toExact
  | cons b others ih =>
    obtain ⟨hb, hnot, hrest⟩ := hothers.of_cons
    rw [List.foldlM_cons, List.foldl_cons, balancedAll_cons]
    constructor
    · rintro ⟨hfold, hexact⟩
      obtain ⟨s, hs, -⟩ := Option.bind_eq_some_iff.1 hfold
      have hbalanced : BalancedAll as [b] := by
        refine balanced_of_mergeStep? h hb c (Option.isSome_iff_exists.2 ⟨s, hs⟩) ?_
        intro x hx hxb
        exact hexact x (mem_foldl_mergeStep _ (nodup_mergeStep h.nodup c b) hx (hxb ▸ hnot))
      rw [mergeStep?_of_balanced h hb hbalanced] at hfold
      have hthen := (ih (h.step hb hbalanced c) hrest _).1 ⟨hfold, hexact⟩
      exact ⟨hbalanced, (balancedAll_mergeStep h.nodup hnot c).1 hthen⟩
    · rintro ⟨hbalanced, hthen⟩
      rw [mergeStep?_of_balanced h hb hbalanced]
      exact (ih (h.step hb hbalanced c) hrest _).2
        ((balancedAll_mergeStep h.nodup hnot c).2 hthen)

/-- The merge of sound addresses is sound, when it is balanced. -/
theorem Sound.fold (h : Sound as) (hothers : Sound others)
    (hbalanced : BalancedAll as others) (c : Cells) :
    Sound (others.foldl mergeStep (as, c)).1 := by
  induction others generalizing as c with
  | nil => exact h
  | cons b others ih =>
    obtain ⟨hb, hnot, hrest⟩ := hothers.of_cons
    obtain ⟨hfirst, hthen⟩ := balancedAll_cons.1 hbalanced
    exact ih (h.step hb hfirst c) hrest ((balancedAll_mergeStep h.nodup hnot c).2 hthen) _

end

/-! ## The construction -/

/-- A new address is sound. -/
theorem Address.sound_new (k : H256) : ({ address := k } : Address).Sound where
  inDegree := rfl
  outDegree := rfl
  reads := by nofun
  flag := rfl

/-- An added unit keeps the address sound: its degree is counted. -/
theorem Address.Sound.addUnit {a : Address} (h : a.Sound) {u : TxUnit}
    (hu : u.unitType = .read → u.coLocated = false) : (a.addUnit u).Sound := by
  have hsingle : degrees [u] = u.wrDependencies := List.sum_singleton
  rw [Address.addUnit]
  cases htype : u.unitType with
  | read =>
    refine ⟨⟨?_, h.outDegree⟩, ?_, h.flag⟩
    · dsimp only
      rw [Address.degrees_append, h.inDegree, hsingle]
    · intro v hv
      rcases List.mem_append.1 hv with hv | hv
      · exact h.reads v hv
      · rw [List.mem_singleton.1 hv]
        exact hu htype
  | write =>
    refine ⟨⟨h.inDegree, ?_⟩, h.reads, ?_⟩
    · dsimp only
      rw [Address.degrees_append, h.outDegree, hsingle]
    · dsimp only
      rw [List.any_append, h.flag, List.any_cons, List.any_nil, Bool.or_false]

/-- An update that keeps an address sound keeps all of them sound. -/
theorem sound_modifyAddress {as : List Address} (h : ∀ a ∈ as, a.Sound) (k : H256)
    {f : Address → Address} (hf : ∀ a, a.Sound → (f a).Sound) :
    ∀ a ∈ modifyAddress k f as, a.Sound := by
  induction as with
  | nil =>
    intro a ha
    rw [modifyAddress, List.mem_singleton] at ha
    rw [ha]
    exact hf _ (Address.sound_new k)
  | cons b as ih =>
    obtain ⟨hb, has⟩ := List.forall_mem_cons.1 h
    rw [modifyAddress]
    split
    · exact List.forall_mem_cons.2 ⟨hf b hb, has⟩
    · exact List.forall_mem_cons.2 ⟨hb, ih has⟩

/-- Added units keep the addresses sound. -/
theorem Sound.addUnits {as : List Address} (h : Sound as) {us : List TxUnit}
    (hus : ∀ u ∈ us, u.unitType = .read → u.coLocated = false) :
    Sound (addUnitsToAddress as us) := by
  refine ⟨nodup_addUnitsToAddress us h.nodup, ?_⟩
  have hsound := h.sound
  clear h
  rw [addUnitsToAddress]
  induction us generalizing as with
  | nil => exact hsound
  | cons u us ih =>
    obtain ⟨hu, hus⟩ := List.forall_mem_cons.1 hus
    exact ih hus (sound_modifyAddress hsound u.address fun a ha => ha.addUnit hu)

/-- A read unit is never co-located. -/
theorem coLocated_of_read {sim : SimulatedTransaction} {type : UnitType} {u : TxUnit}
    (hu : u ∈ unitsOf sim type) (hread : u.unitType = .read) : u.coLocated = false := by
  cases type with
  | read =>
    obtain ⟨v, hv, rfl⟩ := List.mem_map.1 hu
    obtain ⟨slot, -, rfl⟩ := mem_convertToUnits.1 hv
    rfl
  | write =>
    rw [(of_mem_unitsOf hu).2.1] at hread
    cases hread

/-- The construction gives sound addresses. -/
theorem construct_sound (sims : List SimulatedTransaction) : Sound (construct sims).addresses := by
  induction sims using List.reverseRecOn with
  | nil => exact ⟨.nil, by nofun⟩
  | append_singleton sims sim ih =>
    rw [construct, List.foldl_append, ← construct, List.foldl_cons, List.foldl_nil,
      constructStep_eq]
    split
    · exact ih
    · exact (ih.addUnits fun u hu => coLocated_of_read hu).addUnits fun u hu => coLocated_of_read hu

end Chase.Graph

namespace Chase.AddressBasedConflictGraph

open Chase.Graph TreeMerge

/-- `merge` with checked arithmetic: `none` is an overflow or an underflow of a degree. -/
def merge? (acg other : AddressBasedConflictGraph) : Option AddressBasedConflictGraph :=
  (other.addresses.foldlM mergeStep? (acg.addresses, acg.mergedCells other)).map fun r =>
    { addresses := r.1
      txList := other.txList.foldl insertTx acg.txList
      abortedTxs := acg.abortedTxs ++ other.abortedTxs
      cells := r.2 }

/-- The degrees of all addresses are exact. -/
def Exact (acg : AddressBasedConflictGraph) : Prop := ∀ a ∈ acg.addresses, a.Exact

/-- All merges of addresses of two graphs are balanced. -/
def Balanced (acg other : AddressBasedConflictGraph) : Prop :=
  BalancedAll acg.addresses other.addresses

/-- The tree of the merges of `par_construct`. -/
def parTree (ncpu : Nat) (simulationResult : List SimulatedTransaction) :
    Option (MergeTree (List SimulatedTransaction)) :=
  let chunks := simulationChunks ncpu simulationResult
  (rounds MergeTree.node chunks.length (chunks.map MergeTree.leaf)).head?

/-- `par_construct` merges the graphs of the chunks as the tree says. -/
theorem parConstruct_eq_merged (ncpu : Nat) (sims : List SimulatedTransaction) :
    parConstruct ncpu sims = (parTree ncpu sims).map (MergeTree.merged construct merge) := by
  rw [parConstruct, parTree, List.length_map, rounds_map_merged, List.head?_map]

/-- Two graphs are merged without an arithmetic failure into a graph with exact degrees exactly when
they are balanced. -/
theorem merge?_exact_iff {g g' : AddressBasedConflictGraph} (h : Sound g.addresses)
    (h' : Sound g'.addresses) :
    g.merge? g' = some (g.merge g') ∧ (g.merge g').Exact ↔ g.Balanced g' := by
  rw [Balanced, ← foldlM_mergeStep?_iff h h' (g.mergedCells g')]
  refine and_congr_left fun _ => ?_
  rw [merge?, merge]
  constructor
  · intro hsome
    obtain ⟨r, hr, heq⟩ := Option.map_eq_some_iff.1 hsome
    rw [AddressBasedConflictGraph.mk.injEq] at heq
    rw [hr, Option.some_inj]
    exact Prod.ext heq.1 heq.2.2.2
  · intro hsome
    rw [hsome]
    rfl

/-- Along any tree of merges over any chunks of transactions, no arithmetic fails and all degrees
are exact at every merge exactly when every merge of it is balanced; then the degrees of the final
graph are exact. `par_construct` is such a tree. -/
theorem degrees_exact_iff (t : MergeTree (List SimulatedTransaction)) :
    (t.Forall construct merge (fun g g' => g.merge? g' = some (g.merge g') ∧ (g.merge g').Exact) ↔
      t.Forall construct merge Balanced) ∧
    (t.Forall construct merge Balanced → (t.merged construct merge).Exact) ∧
    ∀ ncpu sims, parConstruct ncpu sims =
      (parTree ncpu sims).map (MergeTree.merged construct merge) := by
  have hnode : ∀ {g g' : AddressBasedConflictGraph}, Sound g.addresses → Sound g'.addresses →
      g.Balanced g' → Sound (g.merge g').addresses := by
    intro g g' h h' hbalanced
    exact h.fold h' hbalanced _
  refine ⟨?_, ?_, parConstruct_eq_merged⟩
  · exact MergeTree.forall_congr (Q := fun g => Sound g.addresses) construct_sound hnode
      merge?_exact_iff t
  · intro hbalanced
    have hsound : Sound (t.merged construct merge).addresses :=
      hbalanced.merged (Q := fun g => Sound g.addresses) construct_sound hnode
    exact fun a ha => (hsound.sound a ha).toExact

end AddressBasedConflictGraph

namespace DegreesFixture

open Chase.Graph AddressBasedConflictGraph

/-- Two updaters of the slot `5`, of which the second one also reads the slot `6`. -/
def updaterAndReader : List SimulatedTransaction :=
  [UpdaterFixture.sim 0 [(1, [5])] [(1, [5])], UpdaterFixture.sim 1 [(1, [5, 6])] [(1, [5])]]

/-- In two chunks, the second one takes a degree of one off an in-degree of zero. -/
theorem in_degree_underflows :
    ((construct (updaterAndReader.take 1)).merge?
        (construct (updaterAndReader.drop 1))).isNone = true ∧
      ((parConstruct 2 updaterAndReader).bind fun g => getAddress g.addresses 5).map
        (fun a => (a.inDegree, degrees a.readUnits.units)) = some (4294967295, 0) := by
  decide

end DegreesFixture

end Chase
