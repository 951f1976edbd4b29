import Chase.Core.FirstPass

/-!
# Parallel construction

`par_construct` builds a graph from each chunk of the transactions and merges the graphs pairwise.
`Address::merge` has a branch for two addresses that both have an updater: it aborts the first
updater of the other address and drops all other units of that address. While this branch is not
taken, because no slot has an updater in the graphs of two chunks (`Apart`), merging two graphs
gives the graph of the concatenated chunks (`merge_construct`), so the parallel construction agrees
with the sequential one (`parConstruct_eq`) and so do the two schedules (`parSchedule_eq`).
-/

namespace Chase.Graph

open AddressBasedConflictGraph

/-! ## Merging addresses without a common updater -/

/-- The branch of `Address::merge` for addresses that do not both have an updater. -/
def Address.join (other a : Address) : Address :=
  { a with
    inDegree := a.inDegree + other.inDegree
    outDegree := a.outDegree + other.outDegree
    readUnits := { a.readUnits with units := a.readUnits.units ++ other.readUnits.units }
    writeUnits := { a.writeUnits with units := a.writeUnits.units ++ other.writeUnits.units }
    firstUpdaterFlag := a.firstUpdaterFlag || other.firstUpdaterFlag }

/-- Join each address of `others` into the address of its key. -/
def joinAll (as others : List Address) : List Address :=
  others.foldl (fun as b => modifyAddress b.address (Address.join b) as) as

/-- An address that has not been sorted. -/
structure Address.Fresh (a : Address) : Prop where
  readMax : a.readUnits.maxSeq = 0
  writeMax : a.writeUnits.maxSeq = 0
  flag : a.writeUnits.firstUpdaterFlag = false

/-- There is an updater at the address of the key. -/
def UpdaterAt (as : List Address) (k : H256) : Prop :=
  ∃ a ∈ as, a.address = k ∧ a.firstUpdaterFlag = true

theorem Address.join_address (a b : Address) : (b.join a).address = a.address := rfl

/-- A new address joined with a fresh one is that one. -/
theorem Address.Fresh.join_new {b : Address} (h : b.Fresh) :
    b.join { address := b.address } = b := by
  obtain ⟨h1, h2, h3⟩ := h
  cases b with
  | mk address inDegree outDegree readUnits writeUnits flag =>
    cases readUnits
    cases writeUnits
    simp_all [Address.join]

/-- A unit can be added before or after a join. -/
theorem Address.join_addUnit (a b : Address) (u : TxUnit) :
    (b.addUnit u).join a = (b.join a).addUnit u := by
  unfold Address.addUnit
  cases u.unitType <;> simp [Address.join, Nat.add_assoc, Bool.or_assoc]

/-- The join of a new address with one unit adds the unit. -/
theorem Address.join_new_addUnit (a : Address) (u : TxUnit) :
    ((({ address := u.address } : Address).addUnit u).join a) = a.addUnit u := by
  rw [Address.join_addUnit]
  congr 1
  simp [Address.join]

/-! ## Updating addresses -/

/-- Two updates of a key are one. -/
theorem modifyAddress_modifyAddress {f g : Address → Address} (hf : ∀ a, (f a).address = a.address)
    (k : H256) (as : List Address) :
    modifyAddress k g (modifyAddress k f as) = modifyAddress k (g ∘ f) as := by
  induction as with
  | nil => simp [modifyAddress, hf]
  | cons a as ih =>
    rw [modifyAddress]
    by_cases h : a.address = k
    · simp [modifyAddress, h, hf]
    · simp [modifyAddress, h, ih]

/-- Updates of different keys commute when the first key is there. -/
theorem modifyAddress_comm {f g : Address → Address} (hf : ∀ a, (f a).address = a.address)
    (hg : ∀ a, (g a).address = a.address) {k k' : H256} (hne : k ≠ k') {as : List Address}
    (hk : k ∈ as.map (·.address)) :
    modifyAddress k' g (modifyAddress k f as) = modifyAddress k f (modifyAddress k' g as) := by
  induction as with
  | nil => cases hk
  | cons a as ih =>
    by_cases h : a.address = k
    · have h' : a.address ≠ k' := fun h' => hne (h.symm.trans h')
      simp [modifyAddress, h, hf, hne]
    · have hk := mem_address_of_ne hk h
      by_cases h' : a.address = k'
      · simp [modifyAddress, h', hg, Ne.symm hne]
      · simp [modifyAddress, h, h', ih hk]

/-- Two updates that agree on the address of a key are the same. -/
theorem modifyAddress_congr {f g : Address → Address} {k : H256} {as : List Address}
    (h : ∀ a ∈ as, a.address = k → f a = g a)
    (hnew : k ∉ as.map (·.address) → f { address := k } = g { address := k }) :
    modifyAddress k f as = modifyAddress k g as := by
  induction as with
  | nil => simp [modifyAddress, hnew]
  | cons a as ih =>
    rw [modifyAddress, modifyAddress]
    by_cases ha : a.address = k
    · rw [if_pos ha, if_pos ha, h a List.mem_cons_self ha]
    · rw [if_neg ha, if_neg ha, ih (fun b hb => h b (List.mem_cons_of_mem _ hb)) fun hk => hnew ?_]
      simpa [Ne.symm ha] using hk

/-- An update adds nothing but the address of its key. -/
theorem mem_of_mem_modifyAddress {f : Address → Address} (hf : ∀ a, (f a).address = a.address)
    {k : H256} {as : List Address} {a : Address} (h : a ∈ modifyAddress k f as) :
    a ∈ as ∨ a.address = k := by
  induction as with
  | nil =>
    rw [modifyAddress, List.mem_singleton] at h
    exact .inr (by rw [h, hf])
  | cons b as ih =>
    rw [modifyAddress] at h
    split at h
    · rename_i hb
      rcases List.mem_cons.1 h with rfl | h
      · exact .inr (by rw [hf, hb])
      · exact .inl (List.mem_cons_of_mem _ h)
    · rcases List.mem_cons.1 h with rfl | h
      · exact .inl List.mem_cons_self
      · exact (ih h).imp_left (List.mem_cons_of_mem _)

/-- An update of a key that is not in `others` commutes with joining them, when the key is there. -/
theorem joinAll_modifyAddress {f : Address → Address} (hf : ∀ a, (f a).address = a.address)
    {k : H256} {others as : List Address} (hk : k ∈ as.map (·.address))
    (hnot : k ∉ others.map (·.address)) :
    joinAll (modifyAddress k f as) others = modifyAddress k f (joinAll as others) := by
  induction others generalizing as with
  | nil => rfl
  | cons b others ih =>
    rw [List.map_cons, List.mem_cons, not_or] at hnot
    have hk' : k ∈ (modifyAddress b.address (Address.join b) as).map (·.address) := by
      rw [map_address_modifyAddress (fun a => Address.join_address a b)]
      split
      · exact hk
      · exact List.mem_append_left _ hk
    rw [joinAll, List.foldl_cons, ← joinAll,
      modifyAddress_comm hf (fun a => Address.join_address a b) hnot.1 hk, ih hk' hnot.2]
    rfl

/-- Joining after a unit was added is adding the unit after the join. -/
theorem joinAll_addUnit {as others : List Address} (hnodup : (others.map (·.address)).Nodup)
    (u : TxUnit) : joinAll as (modifyAddress u.address (·.addUnit u) others) =
      modifyAddress u.address (·.addUnit u) (joinAll as others) := by
  induction others generalizing as with
  | nil =>
    change modifyAddress _ _ as = _
    rw [Address.addUnit_address]
    exact modifyAddress_congr (fun a _ _ => Address.join_new_addUnit a u) fun _ =>
      Address.join_new_addUnit _ u
  | cons b others ih =>
    rw [List.map_cons, List.nodup_cons] at hnodup
    rw [modifyAddress]
    by_cases hb : b.address = u.address
    · rw [if_pos hb]
      change joinAll (modifyAddress (b.addUnit u).address (Address.join (b.addUnit u)) as) others =
        modifyAddress u.address (·.addUnit u)
          (joinAll (modifyAddress b.address (Address.join b) as) others)
      have hk : u.address ∈ (modifyAddress b.address (Address.join b) as).map (·.address) := by
        rw [map_address_modifyAddress (fun a => Address.join_address a b), ← hb]
        split
        · assumption
        · simp
      rw [← joinAll_modifyAddress (fun a => a.addUnit_address u) hk (hb ▸ hnodup.1),
        Address.addUnit_address, ← hb,
        modifyAddress_modifyAddress (fun a => Address.join_address a b)]
      congr 1
      exact modifyAddress_congr (fun a _ _ => Address.join_addUnit a b u) fun _ =>
        Address.join_addUnit _ b u
    · rw [if_neg hb]
      exact ih hnodup.2

/-- Units can be added before or after a join of all addresses. -/
theorem joinAll_addUnitsToAddress {as others : List Address}
    (hnodup : (others.map (·.address)).Nodup) (us : List TxUnit) :
    joinAll as (addUnitsToAddress others us) = addUnitsToAddress (joinAll as others) us := by
  induction us generalizing others with
  | nil => rfl
  | cons u us ih =>
    have hnodup' : ((modifyAddress u.address (·.addUnit u) others).map (·.address)).Nodup :=
      nodup_addUnitsToAddress [u] hnodup
    rw [addUnitsToAddress, List.foldl_cons, ← addUnitsToAddress, ih hnodup',
      joinAll_addUnit hnodup]
    rfl

/-! ## Updaters -/

/-- Only the unit of a co-located write sets the flag of the first updater. -/
theorem Address.addUnit_flag (a : Address) (u : TxUnit) : (a.addUnit u).firstUpdaterFlag =
    (a.firstUpdaterFlag || (decide (u.unitType = .write) && u.coLocated)) := by
  unfold Address.addUnit
  split <;> rename_i hu <;> simp [hu]

/-- An update that sets the flag under a condition adds an updater under that condition. -/
theorem updaterAt_modifyAddress {f : Address → Address} {b : Bool}
    (hf : ∀ a, (f a).address = a.address)
    (hflag : ∀ a, (f a).firstUpdaterFlag = (a.firstUpdaterFlag || b)) {k k' : H256}
    {as : List Address} : UpdaterAt (modifyAddress k f as) k' ↔
      UpdaterAt as k' ∨ k = k' ∧ b = true := by
  induction as with
  | nil => simp [modifyAddress, UpdaterAt, hf, hflag]
  | cons a as ih =>
    rw [modifyAddress]
    split
    · rename_i ha
      simp only [UpdaterAt, List.mem_cons, exists_eq_or_imp, hf, hflag, ha, Bool.or_eq_true]
      rw [and_or_left, or_right_comm]
    · simp only [UpdaterAt, List.mem_cons, exists_eq_or_imp] at ih ⊢
      rw [ih, or_assoc]

/-- Adding units adds the updaters among them. -/
theorem updaterAt_addUnitsToAddress {as : List Address} {us : List TxUnit} {k : H256} :
    UpdaterAt (addUnitsToAddress as us) k ↔ UpdaterAt as k ∨
      ∃ u ∈ us, u.unitType = .write ∧ u.coLocated = true ∧ u.address = k := by
  unfold addUnitsToAddress
  induction us generalizing as with
  | nil => simp
  | cons u us ih =>
    rw [List.foldl_cons, ih, updaterAt_modifyAddress (fun a => a.addUnit_address u)
      (fun a => a.addUnit_flag u), or_assoc]
    simp only [List.mem_cons, exists_eq_or_imp, Bool.and_eq_true, decide_eq_true_eq]
    rw [and_comm (a := u.address = k), and_assoc]

/-- A join of all addresses has the updaters of both sides. -/
theorem updaterAt_joinAll {as others : List Address} {k : H256} :
    UpdaterAt (joinAll as others) k ↔ UpdaterAt as k ∨ UpdaterAt others k := by
  induction others generalizing as with
  | nil => simp [joinAll, UpdaterAt]
  | cons b others ih =>
    rw [joinAll, List.foldl_cons, ← joinAll, ih,
      updaterAt_modifyAddress (fun a => Address.join_address a b) (fun _ => rfl), or_assoc]
    simp only [UpdaterAt, List.mem_cons, exists_eq_or_imp]

/-- The check for an updater finds one exactly when a key that the units update has one. -/
theorem checkUpdater_iff {as : List Address} (hnodup : (as.map (·.address)).Nodup)
    {us : List TxUnit} : checkUpdaterAlreadyExistInSameAddress as us = true ↔
      ∃ u ∈ us, u.coLocated = true ∧ UpdaterAt as u.address := by
  simp only [checkUpdaterAlreadyExistInSameAddress, List.any_eq_true, List.mem_filter]
  refine exists_congr fun u => ?_
  rw [and_assoc]
  refine and_congr_right fun _ => and_congr_right fun _ => ?_
  constructor
  · intro h
    cases hget : getAddress as u.address with
    | none => simp [hget] at h
    | some a =>
      have haddr : a.address = u.address := by simpa using List.find?_some hget
      exact ⟨a, List.mem_of_find?_eq_some hget, haddr, by simpa [hget] using h⟩
  · rintro ⟨a, ha, haddr, hflag⟩
    rw [← haddr, getAddress_of_mem hnodup ha]
    exact hflag

/-! ## Merging graphs -/

/-- No slot has an updater in both graphs. -/
def NoCommonUpdater (g g' : AddressBasedConflictGraph) : Prop :=
  ∀ a ∈ g.addresses, a.firstUpdaterFlag = true → ∀ b ∈ g'.addresses, b.firstUpdaterFlag = true →
    a.address ≠ b.address

instance (g g' : AddressBasedConflictGraph) : Decidable (NoCommonUpdater g g') :=
  inferInstanceAs (Decidable (∀ a ∈ g.addresses, a.firstUpdaterFlag = true →
    ∀ b ∈ g'.addresses, b.firstUpdaterFlag = true → a.address ≠ b.address))

/-- Two graphs without a common updater have no key that both update. -/
theorem noCommonUpdater_iff {g g' : AddressBasedConflictGraph} :
    NoCommonUpdater g g' ↔ ∀ k, UpdaterAt g.addresses k → ¬UpdaterAt g'.addresses k := by
  constructor
  · rintro h k ⟨a, ha, rfl, hflag⟩ ⟨b, hb, hba, hflag'⟩
    exact h a ha hflag b hb hflag' hba.symm
  · intro h a ha hflag b hb hflag' hab
    exact h a.address ⟨a, ha, rfl, hflag⟩ ⟨b, hb, hab.symm, hflag'⟩

/-- Without a common updater, `Address::merge` takes its other branch. -/
theorem Address.merge_eq_join {a b : Address} (h : ¬(a.firstUpdaterFlag = true ∧
    b.firstUpdaterFlag = true)) (c : Cells) : a.merge b c = (b.join a, c) := by
  rw [Address.merge, if_neg (by simpa using h)]
  rfl

/-- An update of a new key appends its address. -/
theorem modifyAddress_of_not_mem {f : Address → Address} {k : H256} {as : List Address}
    (h : k ∉ as.map (·.address)) : modifyAddress k f as = as ++ [f { address := k }] := by
  induction as with
  | nil => rfl
  | cons a as ih =>
    rw [List.map_cons, List.mem_cons, not_or] at h
    rw [modifyAddress, if_neg (Ne.symm h.1), ih h.2, List.cons_append]

/-- Without a common updater, one iteration of `merge` joins the address. -/
theorem mergeStep_eq {as : List Address} (hnodup : (as.map (·.address)).Nodup) {b : Address}
    (hb : b.Fresh) (h : ∀ a ∈ as, a.firstUpdaterFlag = true → b.firstUpdaterFlag = true →
      a.address ≠ b.address) (c : Cells) :
    mergeStep (as, c) b = (modifyAddress b.address (Address.join b) as, c) := by
  unfold mergeStep
  cases hget : getAddress as b.address with
  | some mine =>
    have hmine := List.mem_of_find?_eq_some hget
    have haddr : mine.address = b.address := by simpa using List.find?_some hget
    have hflags : ¬(mine.firstUpdaterFlag = true ∧ b.firstUpdaterFlag = true) :=
      fun ⟨h1, h2⟩ => h mine hmine h1 h2 haddr
    simp only [Address.merge_eq_join hflags]
    congr 1
    refine modifyAddress_congr (fun a ha hab => ?_) fun hnot => ?_
    · rw [eq_of_address_eq hnodup ha hmine (hab.trans haddr.symm)]
    · exact absurd (haddr ▸ List.mem_map_of_mem hmine) hnot
  | none =>
    have hnot : b.address ∉ as.map (·.address) := by
      intro hmem
      obtain ⟨a, ha, hab⟩ := List.mem_map.1 hmem
      exact absurd (List.find?_eq_none.1 hget a ha) (by simpa using hab)
    simp only
    rw [modifyAddress_of_not_mem hnot, hb.join_new]

/-- The merge of fresh addresses joins them and aborts nothing, when no key has two updaters. -/
theorem foldl_mergeStep {others as : List Address} (hnodup : (as.map (·.address)).Nodup)
    (hothers : (others.map (·.address)).Nodup) (hfresh : ∀ b ∈ others, b.Fresh)
    (h : ∀ a ∈ as, a.firstUpdaterFlag = true → ∀ b ∈ others, b.firstUpdaterFlag = true →
      a.address ≠ b.address) (c : Cells) :
    others.foldl mergeStep (as, c) = (joinAll as others, c) := by
  induction others generalizing as with
  | nil => rfl
  | cons b others ih =>
    rw [List.map_cons, List.nodup_cons] at hothers
    rw [List.foldl_cons, mergeStep_eq hnodup (hfresh b List.mem_cons_self)
      fun a ha h1 h2 => h a ha h1 b List.mem_cons_self h2]
    refine ih (nodup_modifyAddress (fun a => Address.join_address a b) _ hnodup) hothers.2
      (fun b hb => hfresh b (List.mem_cons_of_mem _ hb)) fun a ha hflag b' hb' hflag' => ?_
    rcases mem_of_mem_modifyAddress (fun a => Address.join_address a b) ha with ha | ha
    · exact h a ha hflag b' (List.mem_cons_of_mem _ hb') hflag'
    · rw [ha]
      exact fun he => hothers.1 (he ▸ List.mem_map_of_mem hb')

/-- Without a common updater, merging joins the addresses and keeps the cells. -/
theorem merge_eq {g g' : AddressBasedConflictGraph} (hnodup : (g.addresses.map (·.address)).Nodup)
    (hnodup' : (g'.addresses.map (·.address)).Nodup) (hfresh : ∀ b ∈ g'.addresses, b.Fresh)
    (h : NoCommonUpdater g g') :
    g.merge g' =
      { addresses := joinAll g.addresses g'.addresses
        txList := g'.txList.foldl insertTx g.txList
        abortedTxs := g.abortedTxs ++ g'.abortedTxs
        cells := g.mergedCells g' } := by
  rw [merge, foldl_mergeStep hnodup hnodup' hfresh h]

/-! ## Merging built graphs -/

theorem Address.Fresh.addUnit {a : Address} (h : a.Fresh) (u : TxUnit) : (a.addUnit u).Fresh := by
  unfold Address.addUnit
  split <;> exact ⟨h.readMax, h.writeMax, h.flag⟩

/-- Fresh addresses stay fresh when units are added. -/
theorem fresh_addUnitsToAddress {as : List Address} (h : ∀ a ∈ as, a.Fresh) (us : List TxUnit) :
    ∀ a ∈ addUnitsToAddress as us, a.Fresh := by
  have hmodify : ∀ (u : TxUnit) (as : List Address), (∀ a ∈ as, a.Fresh) →
      ∀ a ∈ modifyAddress u.address (·.addUnit u) as, a.Fresh := by
    intro u as
    induction as with
    | nil =>
      intro _ a ha
      obtain rfl := List.mem_singleton.1 ha
      exact Address.Fresh.addUnit ⟨rfl, rfl, rfl⟩ u
    | cons b as ih =>
      intro h a ha
      rw [modifyAddress] at ha
      have hb := h b List.mem_cons_self
      have has := fun a ha => h a (List.mem_cons_of_mem _ ha)
      split at ha
      · rcases List.mem_cons.1 ha with rfl | ha
        · exact hb.addUnit u
        · exact has a ha
      · rcases List.mem_cons.1 ha with rfl | ha
        · exact hb
        · exact ih has a ha
  unfold addUnitsToAddress
  induction us generalizing as with
  | nil => exact h
  | cons u us ih => exact ih (hmodify u as h)

/-- A step of the construction keeps the addresses fresh. -/
theorem constructStep_fresh {g : AddressBasedConflictGraph} (h : ∀ a ∈ g.addresses, a.Fresh)
    (sim : SimulatedTransaction) : ∀ a ∈ (constructStep g sim).addresses, a.Fresh := by
  rw [constructStep_eq]
  split
  · exact h
  · exact fresh_addUnitsToAddress (fresh_addUnitsToAddress h _) _

/-- The construction gives fresh addresses. -/
theorem construct_fresh (sims : List SimulatedTransaction) :
    ∀ a ∈ (construct sims).addresses, a.Fresh := by
  induction sims using List.reverseRecOn with
  | nil => exact fun _ h => nomatch h
  | append_singleton sims sim ih =>
    rw [construct, List.foldl_append]
    exact constructStep_fresh ih sim

/-- A graph holds the transactions that it was built from. -/
theorem Built.holds_iff {kept early : List SimulatedTransaction} {g : AddressBasedConflictGraph}
    (h : Built kept early g) (t : TxId) : g.holds t = true ↔ t ∈ (kept ++ early).map (·.id) := by
  rw [holds, h.txList, h.abortedTxs, List.map_append, List.mem_append, Bool.or_eq_true]
  simp only [List.any_map, List.any_eq_true, Function.comp_apply, decide_eq_true_eq, List.mem_map]
  rfl

/-- A transaction that a graph was not built from has a cell with the defaults. -/
theorem Built.cells_of_not_mem {kept early : List SimulatedTransaction}
    {g : AddressBasedConflictGraph} (h : Built kept early g) {t : TxId}
    (ht : t ∉ (kept ++ early).map (·.id)) : g.cells t = {} := by
  rw [h.cells t, if_neg fun hmem => ht ?_]
  rw [List.map_append]
  exact List.mem_append_right _ hmem

/-- The updaters of a graph stay when a transaction is added. -/
theorem updaterAt_constructStep {g : AddressBasedConflictGraph} (sim : SimulatedTransaction)
    {k : H256} (h : UpdaterAt g.addresses k) : UpdaterAt (constructStep g sim).addresses k := by
  rw [constructStep_eq]
  split
  · exact h
  · exact updaterAt_addUnitsToAddress.2 (.inl (updaterAt_addUnitsToAddress.2 (.inl h)))

/-- The slots that a kept transaction updates have an updater. -/
theorem updaterAt_keepTx {g : AddressBasedConflictGraph} {sim : SimulatedTransaction} {u : TxUnit}
    (hu : u ∈ updates sim) (hco : u.coLocated = true) :
    UpdaterAt (keepTx g sim).addresses u.address := by
  refine updaterAt_addUnitsToAddress.2 (.inr ⟨_, List.mem_map_of_mem hu, ?_, hco, rfl⟩)
  obtain ⟨slot, -, rfl⟩ := mem_convertToUnits.1 hu
  rfl

section Merge

variable {kept early kept' early' : List SimulatedTransaction} {g g' : AddressBasedConflictGraph}

/-- A join of all addresses keeps the keys distinct. -/
theorem nodup_joinAll {as : List Address} (others : List Address) (h : (as.map (·.address)).Nodup) :
    ((joinAll as others).map (·.address)).Nodup := by
  induction others generalizing as with
  | nil => exact h
  | cons b others ih => exact ih (nodup_modifyAddress (fun a => Address.join_address a b) _ h)

/-- The cells of a merge are those of the graph that has the transaction. -/
theorem Built.mergedCells_eq (h' : Built kept' early' g') (t : TxId) :
    g.mergedCells g' t = if t ∈ (kept' ++ early').map (·.id) then g'.cells t else g.cells t := by
  rw [mergedCells]
  simp only [h'.holds_iff]

/-- The cells when a transaction with a new id is added to the second graph. -/
theorem Built.mergedCells_step {sim : SimulatedTransaction} {g'' : AddressBasedConflictGraph}
    {kept'' early'' : List SimulatedTransaction} (h'' : Built kept'' early'' g'')
    (hperm : (kept'' ++ early'').Perm (kept' ++ early' ++ [sim])) (t : TxId) :
    g.mergedCells g'' t = if t = sim.id then g''.cells t
      else if t ∈ (kept' ++ early').map (·.id) then g''.cells t else g.cells t := by
  have hmem : t ∈ (kept'' ++ early'').map (·.id) ↔
      t ∈ (kept' ++ early').map (·.id) ∨ t = sim.id := by
    rw [(hperm.map (·.id)).mem_iff, List.map_append, List.mem_append, List.map_singleton,
      List.mem_singleton]
  rw [h''.mergedCells_eq]
  simp only [hmem]
  by_cases ht : t = sim.id <;> simp [ht]

/-- The check on the joined addresses has the outcome of the check on the second ones: a transaction
that is kept in the second graph updates no slot that has an updater in the first. -/
theorem checkUpdater_joinAll (h : Built kept early g) (h' : Built kept' early' g')
    {sim : SimulatedTransaction} (hapart : NoCommonUpdater g (constructStep g' sim)) :
    checkUpdaterAlreadyExistInSameAddress (joinAll g.addresses g'.addresses) (updates sim) =
      checkUpdaterAlreadyExistInSameAddress g'.addresses (updates sim) := by
  rw [Bool.eq_iff_iff, checkUpdater_iff (nodup_joinAll g'.addresses h.nodup)]
  constructor
  · rintro ⟨u, hu, hco, hat⟩
    by_contra hcheck
    rcases updaterAt_joinAll.1 hat with hat | hat
    · refine noCommonUpdater_iff.1 hapart u.address hat ?_
      rw [constructStep_eq, if_neg hcheck]
      exact updaterAt_keepTx hu hco
    · exact hcheck ((checkUpdater_iff h'.nodup).2 ⟨u, hu, hco, hat⟩)
  · intro hcheck
    obtain ⟨u, hu, hco, hat⟩ := (checkUpdater_iff h'.nodup).1 hcheck
    exact ⟨u, hu, hco, updaterAt_joinAll.2 (.inr hat)⟩

section

variable (h : Built kept early g) (h' : Built kept' early' g')
  (hfresh : ∀ a ∈ g'.addresses, a.Fresh) {sim : SimulatedTransaction}
  (hid : sim.id ∉ (kept ++ early).map (·.id)) (hid' : sim.id ∉ (kept' ++ early').map (·.id))

include h h' hfresh hid hid'

/-- A transaction with a new id is aborted in the second of two graphs before or after they are
merged. -/
theorem merge_abortTx (hapart : NoCommonUpdater g g') :
    g.merge (abortTx g' sim) = abortTx (g.merge g') sim := by
  rw [merge_eq h.nodup (h'.abort sim).nodup hfresh hapart, merge_eq h.nodup h'.nodup hfresh hapart,
    abortTx, abortTx]
  simp only [AddressBasedConflictGraph.mk.injEq, List.append_assoc, true_and]
  funext t
  refine ((h'.abort sim).mergedCells_step (by rw [List.append_assoc]) t).trans ?_
  by_cases ht : t = sim.id
  · subst ht
    rw [if_pos rfl]
    simp [abortTx, Cells.abort, h'.mergedCells_eq, h.cells_of_not_mem hid, h'.cells_of_not_mem hid']
  · rw [if_neg ht, Cells.abort_of_ne _ ht, h'.mergedCells_eq]
    simp only [abortTx, Cells.abort_of_ne _ ht]

/-- A transaction with a new id is kept in the second of two graphs before or after they are
merged. -/
theorem merge_keepTx (hapart : NoCommonUpdater g g') (hapart' : NoCommonUpdater g (keepTx g' sim)) :
    g.merge (keepTx g' sim) = keepTx (g.merge g') sim := by
  have hnew : sim.id ∉ kept'.map (·.id) := fun hmem => hid' (by
    rw [List.map_append]
    exact List.mem_append_left _ hmem)
  have hkeep := h'.keep sim hnew
  rw [merge_eq h.nodup hkeep.nodup
    (fresh_addUnitsToAddress (fresh_addUnitsToAddress hfresh _) _) hapart',
    merge_eq h.nodup h'.nodup hfresh hapart]
  simp only [keepTx, AddressBasedConflictGraph.mk.injEq, true_and]
  refine ⟨?_, ?_, ?_⟩
  · rw [joinAll_addUnitsToAddress (nodup_addUnitsToAddress _ h'.nodup),
      joinAll_addUnitsToAddress h'.nodup]
  · have hnew' : (keptTransaction sim).txId ∉ g'.txList.map (·.txId) := by
      rw [h'.txList, List.map_map]
      exact hnew
    rw [insertTx_of_fresh hnew', List.foldl_append]
    rfl
  · funext t
    have hperm : (kept' ++ [sim] ++ early').Perm (kept' ++ early' ++ [sim]) := by
      rw [List.append_assoc, List.append_assoc]
      exact List.perm_append_comm.append_left kept'
    have hstep := hkeep.mergedCells_step (g := g) hperm t
    rw [keepTx] at hstep
    rw [hstep, h'.mergedCells_eq]
    by_cases ht : t = sim.id
    · subst ht
      rw [if_pos rfl, if_neg hid', h.cells_of_not_mem hid, h'.cells_of_not_mem hid']
    · rw [if_neg ht]

/-- A transaction with a new id is added to the second of two graphs before or after they are
merged. -/
theorem merge_constructStep (hapart : NoCommonUpdater g (constructStep g' sim)) :
    g.merge (constructStep g' sim) = constructStep (g.merge g') sim := by
  have hapart' : NoCommonUpdater g g' := noCommonUpdater_iff.2 fun k hk hk' =>
    noCommonUpdater_iff.1 hapart k hk (updaterAt_constructStep sim hk')
  have hcheck : checkUpdaterAlreadyExistInSameAddress (g.merge g').addresses (updates sim) =
      checkUpdaterAlreadyExistInSameAddress g'.addresses (updates sim) := by
    rw [merge_eq h.nodup h'.nodup hfresh hapart']
    exact checkUpdater_joinAll h h' hapart
  rw [constructStep_eq] at hapart
  rw [constructStep_eq, constructStep_eq, hcheck]
  split
  · exact merge_abortTx h h' hfresh hid hid' hapart'
  · rename_i hkeep
    rw [if_neg hkeep] at hapart
    exact merge_keepTx h h' hfresh hid hid' hapart' hapart

end

/-- The two lists have different ids, and no slot has an updater in both of their graphs. -/
def Apart (l l' : List SimulatedTransaction) : Prop :=
  ((l ++ l').map (·.id)).Nodup ∧ NoCommonUpdater (construct l) (construct l')

/-- The construction of one more simulation is one more step. -/
theorem construct_append_singleton (l : List SimulatedTransaction) (sim : SimulatedTransaction) :
    construct (l ++ [sim]) = constructStep (construct l) sim := by
  rw [construct, List.foldl_append]
  rfl

/-- Merging the graphs of two lists that are apart gives the graph of their concatenation. -/
theorem merge_construct {l l' : List SimulatedTransaction} (h : Apart l l') :
    (construct l).merge (construct l') = construct (l ++ l') := by
  obtain ⟨hid, hapart⟩ := h
  induction l' using List.reverseRecOn with
  | nil =>
    rw [List.append_nil] at hid ⊢
    obtain ⟨_, _, -, hbuilt, -⟩ := construct_built hid
    have hnil : ((construct []).addresses.map (·.address)).Nodup := List.nodup_nil
    have hmerge := merge_eq hbuilt.nodup hnil (fun a ha => nomatch ha) hapart
    have haborted : (construct []).abortedTxs = [] := rfl
    rw [haborted, List.append_nil] at hmerge
    exact hmerge
  | append_singleton l' sim ih =>
    rw [construct_append_singleton] at hapart ⊢
    rw [← List.append_assoc, List.map_append, List.nodup_append] at hid
    obtain ⟨hid, -, hnew⟩ := hid
    have hnew : sim.id ∉ (l ++ l').map (·.id) := fun hmem => hnew _ hmem _ (by simp) rfl
    have hids := hid
    rw [List.map_append, List.nodup_append] at hids
    obtain ⟨kept, early, hperm, hbuilt, -⟩ := construct_built hids.1
    obtain ⟨kept', early', hperm', hbuilt', -⟩ := construct_built hids.2.1
    rw [List.map_append, List.mem_append, not_or, ← (hperm.map (·.id)).mem_iff,
      ← (hperm'.map (·.id)).mem_iff] at hnew
    rw [merge_constructStep hbuilt hbuilt' (construct_fresh l') hnew.1 hnew.2 hapart, ih hid,
      ← List.append_assoc, construct_append_singleton]
    exact noCommonUpdater_iff.2 fun k hk hk' =>
      noCommonUpdater_iff.1 hapart k hk (updaterAt_constructStep sim hk')

/-- The updaters of a graph of two apart lists are those of either. -/
theorem updaterAt_construct_append {l l' : List SimulatedTransaction} (h : Apart l l') (k : H256) :
    UpdaterAt (construct (l ++ l')).addresses k ↔
      UpdaterAt (construct l).addresses k ∨ UpdaterAt (construct l').addresses k := by
  have hids := h.1
  rw [List.map_append, List.nodup_append] at hids
  obtain ⟨_, _, -, hbuilt, -⟩ := construct_built hids.1
  obtain ⟨_, _, -, hbuilt', -⟩ := construct_built hids.2.1
  rw [← merge_construct h, merge_eq hbuilt.nodup hbuilt'.nodup (construct_fresh l') h.2]
  exact updaterAt_joinAll

/-- Three lists have distinct ids when any two of them have. -/
theorem nodup_ids_append_left {l l' m : List SimulatedTransaction}
    (h : ((l ++ l').map (·.id)).Nodup) (hm : ((l ++ m).map (·.id)).Nodup)
    (hm' : ((l' ++ m).map (·.id)).Nodup) : ((l ++ l' ++ m).map (·.id)).Nodup := by
  rw [List.map_append, List.nodup_append] at *
  refine ⟨by rw [List.map_append, List.nodup_append]; exact h, hm.2.1, fun a ha b hb => ?_⟩
  rw [List.map_append, List.mem_append] at ha
  rcases ha with ha | ha
  · exact hm.2.2 a ha b hb
  · exact hm'.2.2 a ha b hb

/-- Graphs are built from chunks that are apart and merged to the graph of the whole list. -/
theorem mergeable_construct : TreeMerge.Mergeable construct merge Apart where
  merge _ _ h := merge_construct h
  append_left l l' m h hm hm' := by
    refine ⟨nodup_ids_append_left h.1 hm.1 hm'.1, noCommonUpdater_iff.2 fun k hk hk' => ?_⟩
    rcases (updaterAt_construct_append h k).1 hk with hk | hk
    · exact noCommonUpdater_iff.1 hm.2 k hk hk'
    · exact noCommonUpdater_iff.1 hm'.2 k hk hk'
  append_right l m m' h hm hm' := by
    have hswap {l l' : List SimulatedTransaction} :
        ((l ++ l').map (·.id)).Nodup → ((l' ++ l).map (·.id)).Nodup := fun h =>
      (List.perm_append_comm.map _).nodup_iff.1 h
    refine ⟨hswap (nodup_ids_append_left h.1 (hswap hm.1) (hswap hm'.1)),
      noCommonUpdater_iff.2 fun k hk hk' => ?_⟩
    rcases (updaterAt_construct_append h k).1 hk' with hk' | hk'
    · exact noCommonUpdater_iff.1 hm.2 k hk hk'
    · exact noCommonUpdater_iff.1 hm'.2 k hk hk'

end Merge

/-- No slot has an updater in the graphs of two chunks: the branch of `Address::merge` for two
updaters is not taken. -/
def ChunksApart (ncpu : Nat) (sims : List SimulatedTransaction) : Prop :=
  (simulationChunks ncpu sims).Pairwise fun c c' => NoCommonUpdater (construct c) (construct c')

instance (ncpu : Nat) (sims : List SimulatedTransaction) : Decidable (ChunksApart ncpu sims) :=
  inferInstanceAs (Decidable (List.Pairwise _ _))

/-- Chunks whose graphs have no common updater are apart. -/
theorem pairwise_apart {cs : List (List SimulatedTransaction)}
    (hid : (cs.flatten.map (·.id)).Nodup)
    (h : cs.Pairwise fun c c' => NoCommonUpdater (construct c) (construct c')) :
    cs.Pairwise Apart := by
  induction cs with
  | nil => exact .nil
  | cons c cs ih =>
    obtain ⟨hc, hcs⟩ := List.pairwise_cons.1 h
    have hid' := hid
    rw [List.flatten_cons, List.map_append, List.nodup_append] at hid'
    refine List.pairwise_cons.2 ⟨fun c' hc' => ⟨?_, hc c' hc'⟩, ih hid'.2.1 hcs⟩
    refine hid.sublist (List.Sublist.map _ ?_)
    exact (List.sublist_flatten_of_mem hc').append_left c

/-- The parallel construction agrees with the sequential one. -/
theorem parConstruct_eq {ncpu : Nat} {sims : List SimulatedTransaction} (hne : sims ≠ [])
    (hid : (sims.map (·.id)).Nodup) (h : ChunksApart ncpu sims) :
    parConstruct ncpu sims = some (construct sims) := by
  have hflat := flatten_simulationChunks ncpu sims
  have hchunks : simulationChunks ncpu sims ≠ [] := TreeMerge.chunks_ne_nil hne (Nat.le_refl _)
  have hrounds := mergeable_construct.rounds_eq (simulationChunks ncpu sims).length hchunks
    (Nat.le_succ _) (pairwise_apart (by rwa [hflat]) h)
  rw [parConstruct, List.length_map, hrounds, hflat]
  rfl

end Chase.Graph

namespace Chase

open Chase.Graph AddressBasedConflictGraph

/-- The schedule of the parallel construction is that of the sequential one, on any number of cores
for which the chunks have no common updater. -/
theorem parSchedule_eq (ncpu : Nat) (sims : List SimulatedTransaction) (hne : sims ≠ [])
    (hid : (sims.map (·.id)).Nodup) (h : ChunksApart ncpu sims) :
    parSchedule ncpu sims = some (schedule sims) := by
  rw [parSchedule, parConstruct_eq hne hid h]
  rfl

namespace FirstPassFixture

/-- The parallel schedule of an update and a blind write is the sequential one. -/
theorem parSchedule_eq_updateThenWrite :
    parSchedule 2 updateThenWrite = some (schedule updateThenWrite) :=
  parSchedule_eq 2 updateThenWrite (by decide) (by decide) (by decide)

/-- An updater of the slot `5` in each half of the batch, and a blind writer of it in the second. -/
def twoUpdaters : List SimulatedTransaction :=
  [sim 0 [5] [5], sim 1 [] [7], sim 2 [5] [5], sim 3 [] [5]]

/-- The re-execution of the second updater. -/
def secondUpdater : AbortedTransaction := ⟨(sim 2 [5] [5]).rawTx, [5], [5]⟩

/-- On two cores the merge drops the write unit of the transaction `3`, which keeps the sequence
number `0`: it is committed before the updater that it follows in the sequential schedule. -/
theorem parSchedule_drops_write :
    twoUpdaters ≠ [] ∧ (twoUpdaters.map (·.id)).Nodup ∧
      schedule twoUpdaters = .ok
        { conflictFreeZone := [[finalized 0 [5]], [finalized 1 [7]]]
          conflictZoneFinalized := [[finalized 3 [5]]]
          conflictZoneAborted := [[secondUpdater]] } ∧
      parSchedule 2 twoUpdaters = some (.ok
        { conflictFreeZone := [[finalized 3 [5]]]
          conflictZoneFinalized := [[finalized 0 [5], finalized 1 [7]]]
          conflictZoneAborted := [[secondUpdater]] }) := by
  decide

end FirstPassFixture

end Chase
