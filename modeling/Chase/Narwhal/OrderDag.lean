import Chase.Narwhal.Consensus

/-!
# The traversal of a sub-dag

What `order_dag` needs from its lookup of parents: it returns within its bound when the certificates
that it meets have all their parents, and its result depends on the lookup at these certificates
only.
-/

namespace Chase.Narwhal

variable {parentOf parentOf' : Certificate → CertificateDigest → Option Certificate}
  (lastCommitted : AuthorityIdentifier → Option Nat)

/-! ## Two lookups that agree -/

/-- The pushed parents depend on the lookups of these parents only. -/
theorem pushParents_congr {x : Certificate} {parents : List CertificateDigest} (t : Traversal)
    (h : ∀ digest ∈ parents, parentOf x digest = parentOf' x digest) :
    pushParents parentOf lastCommitted x parents t =
      pushParents parentOf' lastCommitted x parents t := by
  induction parents generalizing t with
  | nil => rfl
  | cons parent parents ih =>
    have ih' := fun t => ih t fun digest hdigest => h digest (List.mem_cons_of_mem _ hdigest)
    rw [pushParents, pushParents, h parent List.mem_cons_self]
    cases parentOf' x parent with
    | none => rfl
    | some certificate => simp only [ih']

/-! ## The parents of a certificate -/

/-- When the lookup finds the parents, those that are not skipped go to the top of the buffer. -/
theorem pushParents_spec {Below : Certificate → Prop} {x : Certificate}
    {parents : List CertificateDigest} (t : Traversal) (hnodup : t.alreadyOrdered.Nodup)
    (h : ∀ digest ∈ parents, ∃ p, parentOf x digest = some p ∧ Below p) :
    ∃ pushed : List Certificate,
      pushParents parentOf lastCommitted x parents t =
        .ok { t with
          buffer := pushed ++ t.buffer
          alreadyOrdered := pushed.map (·.digest) ++ t.alreadyOrdered } ∧
      (pushed.map (·.digest) ++ t.alreadyOrdered).Nodup ∧
      ∀ p ∈ pushed, Below p ∧ isCommitted lastCommitted p = false := by
  induction parents generalizing t with
  | nil => exact ⟨[], rfl, hnodup, nofun⟩
  | cons parent parents ih =>
    have hrest : ∀ digest ∈ parents, ∃ p, parentOf x digest = some p ∧ Below p :=
      fun digest hdigest => h digest (List.mem_cons_of_mem _ hdigest)
    obtain ⟨p, hp, hbelow⟩ := h parent List.mem_cons_self
    rw [pushParents, hp]
    by_cases hskip : (t.alreadyOrdered.contains p.digest || isCommitted lastCommitted p) = true
    · simp only [hskip, if_true]
      exact ih t hnodup hrest
    · have hnew : p.digest ∉ t.alreadyOrdered := fun hmem => hskip (by simp [hmem])
      have hopen : isCommitted lastCommitted p = false :=
        Bool.eq_false_iff.2 fun hcommitted => hskip (by simp [hcommitted])
      simp only [hskip]
      obtain ⟨pushed, heq, hnd, hpushed⟩ := ih
        { t with buffer := p :: t.buffer, alreadyOrdered := p.digest :: t.alreadyOrdered }
        (List.nodup_cons.2 ⟨hnew, hnodup⟩) hrest
      refine ⟨pushed ++ [p], ?_, ?_, fun q hq => ?_⟩
      · simpa using heq
      · simpa using hnd
      · rcases List.mem_append.1 hq with hq | hq
        · exact hpushed q hq
        · rw [List.mem_singleton.1 hq]
          exact ⟨hbelow, hopen⟩

/-! ## The loop -/

/-- The state of the traversal: what is ordered or in the buffer is the first certificate and those
that were pushed, each of them once. -/
structure Visits (Inv Below : Certificate → Prop) (first : CertificateDigest) (t : Traversal) :
    Prop where
  nodup : t.alreadyOrdered.Nodup
  below : ∀ d ∈ t.alreadyOrdered, ∃ p, Below p ∧ p.digest = d
  inv : ∀ x ∈ t.ordered ++ t.buffer, Inv x
  perm : ((t.ordered ++ t.buffer).map (·.digest)).Perm (first :: t.alreadyOrdered)

section

variable {gcRound : Nat} {Inv Below : Certificate → Prop} {first : CertificateDigest}
  {t : Traversal} {x : Certificate} {buffer : List Certificate}

/-- At the start the leader is in the buffer. -/
theorem Visits.start {leader : Certificate} (hleader : Inv leader) :
    Visits Inv Below leader.digest { buffer := [leader] } :=
  ⟨List.nodup_nil, nofun, fun _ hx => List.mem_singleton.1 hx ▸ hleader, .refl _⟩

theorem Visits.length (h : Visits Inv Below first t) :
    t.ordered.length + t.buffer.length = t.alreadyOrdered.length + 1 := by
  simpa using h.perm.length_eq

theorem Visits.inv_head (h : Visits Inv Below first t) (hbuffer : t.buffer = x :: buffer) : Inv x :=
  h.inv x (List.mem_append_right _ (hbuffer ▸ List.mem_cons_self))

/-- The top of the buffer is ordered. -/
theorem Visits.order (h : Visits Inv Below first t) (hbuffer : t.buffer = x :: buffer) :
    Visits Inv Below first { t with ordered := t.ordered ++ [x], buffer } := by
  obtain ⟨hnodup, hbelow, hinv, hperm⟩ := h
  rw [hbuffer, List.append_cons] at hinv hperm
  exact ⟨hnodup, hbelow, hinv, hperm⟩

/-- New certificates are put on the buffer. -/
theorem Visits.push (h : Visits Inv Below first t) {pushed : List Certificate}
    (hnodup : (pushed.map (·.digest) ++ t.alreadyOrdered).Nodup)
    (hpushed : ∀ p ∈ pushed, Below p ∧ Inv p) :
    Visits Inv Below first
      { t with
        buffer := pushed ++ t.buffer
        alreadyOrdered := pushed.map (·.digest) ++ t.alreadyOrdered } := by
  refine ⟨hnodup, fun d hd => ?_, fun y hy => ?_, ?_⟩
  · rcases List.mem_append.1 hd with hd | hd
    · obtain ⟨p, hp, rfl⟩ := List.mem_map.1 hd
      exact ⟨p, (hpushed p hp).1, rfl⟩
    · exact h.below d hd
  · rcases List.mem_append.1 ((List.perm_append_comm_assoc _ _ _).mem_iff.1 hy) with hy | hy
    · exact (hpushed y hy).2
    · exact h.inv y hy
  · refine ((List.perm_append_comm_assoc _ _ _).map _).trans ?_
    rw [List.map_append]
    exact (h.perm.append_left _).trans List.perm_middle

variable
  (hparents : ∀ x, Inv x → x.round ≠ gcRound + 1 → ∀ digest ∈ x.parents,
    ∃ p, parentOf x digest = some p ∧ Below p)
  (hbelow : ∀ p, Below p → isCommitted lastCommitted p = false → Inv p)

include hparents hbelow

/-- The parents of a certificate that keeps the invariant are found and pushed. -/
theorem Visits.pushParents (h : Visits Inv Below first t) (hx : Inv x)
    (hgc : x.round ≠ gcRound + 1) :
    ∃ t', pushParents parentOf lastCommitted x x.parents t = .ok t' ∧ Visits Inv Below first t' ∧
      t'.ordered = t.ordered ∧ ∀ y ∈ t.buffer, y ∈ t'.buffer := by
  obtain ⟨pushed, heq, hnodup, hpushed⟩ :=
    pushParents_spec lastCommitted t h.nodup (hparents x hx hgc)
  refine ⟨_, heq, h.push hnodup fun p hp => ?_, rfl, fun y hy => List.mem_append_right _ hy⟩
  exact ⟨(hpushed p hp).1, hbelow p (hpushed p hp).1 (hpushed p hp).2⟩

/-- The traversal depends on the lookups of the visited certificates only. -/
theorem orderLoop_congr
    (hcongr : ∀ x, Inv x → x.round ≠ gcRound + 1 → ∀ digest ∈ x.parents,
      parentOf' x digest = parentOf x digest)
    (fuel : Nat) (h : Visits Inv Below first t) :
    orderLoop parentOf' lastCommitted gcRound fuel t =
      orderLoop parentOf lastCommitted gcRound fuel t := by
  induction fuel generalizing t with
  | zero => cases hbuffer : t.buffer <;> simp only [orderLoop, hbuffer]
  | succ fuel ih =>
    cases hbuffer : t.buffer with
    | nil => simp only [orderLoop, hbuffer]
    | cons x buffer =>
      have hx := h.inv_head hbuffer
      rw [orderLoop, orderLoop, hbuffer]
      by_cases hgc : x.round = gcRound + 1
      · simp only [hgc, if_true]
        exact ih (h.order hbuffer)
      · simp only [hgc, if_false]
        rw [pushParents_congr lastCommitted _ (hcongr x hx hgc)]
        obtain ⟨t', heq, h', -⟩ :=
          (h.order hbuffer).pushParents lastCommitted hparents hbelow hx hgc
        rw [heq]
        exact ih h'

/-- The loop returns when its bound covers the certificates that can be pushed: every iteration
takes one certificate from the buffer, and the buffer only ever gets what is not yet ordered. -/
theorem orderLoop_spec
    {bound : Nat} (hbound : ∀ l : List CertificateDigest, l.Nodup →
      (∀ d ∈ l, ∃ p, Below p ∧ p.digest = d) → l.length ≤ bound)
    (fuel : Nat) (h : Visits Inv Below first t) (hfuel : bound + 1 ≤ fuel + t.ordered.length) :
    ∃ t', orderLoop parentOf lastCommitted gcRound fuel t = .ok t'.ordered ∧ t'.buffer = [] ∧
      Visits Inv Below first t' ∧ ∀ y ∈ t.ordered ++ t.buffer, y ∈ t'.ordered := by
  induction fuel generalizing t with
  | zero =>
    have hle := hbound _ h.nodup h.below
    have hlength := h.length
    have hbuffer : t.buffer = [] := List.eq_nil_of_length_eq_zero (by omega)
    exact ⟨t, by simp only [orderLoop, hbuffer], hbuffer, h, by simp [hbuffer]⟩
  | succ fuel ih =>
    cases hbuffer : t.buffer with
    | nil => exact ⟨t, by simp only [orderLoop, hbuffer], hbuffer, h, by simp⟩
    | cons x buffer =>
      have hfuel' : bound + 1 ≤ fuel + (t.ordered ++ [x]).length := by
        rw [List.length_append, List.length_singleton]
        omega
      rw [orderLoop, hbuffer, List.append_cons]
      by_cases hgc : x.round = gcRound + 1
      · simp only [hgc, if_true]
        exact ih (h.order hbuffer) hfuel'
      · simp only [hgc, if_false]
        obtain ⟨t₁, heq, h₁, hordered, hmem⟩ :=
          (h.order hbuffer).pushParents lastCommitted hparents hbelow (h.inv_head hbuffer) hgc
        rw [heq]
        obtain ⟨t', heq', hbuffer', h', hsub⟩ := ih h₁ (by rw [hordered]; exact hfuel')
        refine ⟨t', heq', hbuffer', h', fun y hy => hsub y ?_⟩
        rw [hordered]
        rcases List.mem_append.1 hy with hy | hy
        · exact List.mem_append_left _ hy
        · exact List.mem_append_right _ (hmem y hy)

end

/-! ## Sub-dags -/

section

variable {gcDepth fuel : Nat} {leader : Certificate} {Inv Below : Certificate → Prop}
  (hparents : ∀ x, Inv x → x.round ≠ gcRound leader.round gcDepth + 1 → ∀ digest ∈ x.parents,
    ∃ p, parentOf x digest = some p ∧ Below p)
  (hbelow : ∀ p, Below p → isCommitted lastCommitted p = false → Inv p) (hleader : Inv leader)

include hparents hbelow hleader

/-- The order of a sub-dag depends on the lookups of its certificates only. -/
theorem orderFrom_congr
    (h : ∀ x, Inv x → x.round ≠ gcRound leader.round gcDepth + 1 → ∀ digest ∈ x.parents,
      parentOf' x digest = parentOf x digest) :
    orderFrom parentOf' lastCommitted gcDepth fuel leader =
      orderFrom parentOf lastCommitted gcDepth fuel leader := by
  rw [orderFrom, orderFrom, orderLoop_congr lastCommitted hparents hbelow h fuel (.start hleader)]

/-- The sub-dag of a leader is sorted by rounds, and apart from the leader it has every certificate
once. -/
theorem orderFrom_spec
    (hbound : ∀ l : List CertificateDigest, l.Nodup → (∀ d ∈ l, ∃ p, Below p ∧ p.digest = d) →
      l.length < fuel) (hround : leader.round ≠ 0) :
    ∃ l, orderFrom parentOf lastCommitted gcDepth fuel leader = .ok l ∧ (∀ x ∈ l, Inv x) ∧
      leader ∈ l ∧ (l.Pairwise fun a b => a.round ≤ b.round) ∧
      ∃ seen : List CertificateDigest, seen.Nodup ∧ (∀ d ∈ seen, ∃ p, Below p ∧ p.digest = d) ∧
        (l.map (·.digest)).Perm (leader.digest :: seen) := by
  have hbound' : ∀ l : List CertificateDigest, l.Nodup → (∀ d ∈ l, ∃ p, Below p ∧ p.digest = d) →
      l.length ≤ fuel - 1 := fun l hnd hmem => Nat.le_sub_one_of_lt (hbound l hnd hmem)
  have hfuel := hbound [] List.nodup_nil nofun
  obtain ⟨t, heq, hbuffer, ⟨hnodup, hseen, hinv, hdigests⟩, hsub⟩ :=
    orderLoop_spec lastCommitted hparents hbelow hbound' fuel (.start hleader)
      (by simp only [List.length_nil] at hfuel ⊢; omega)
  rw [hbuffer, List.append_nil] at hinv hdigests
  have hperm := List.perm_insertionSort (fun a b : Certificate => a.round ≤ b.round) t.ordered
  refine ⟨t.ordered.insertionSort fun a b => a.round ≤ b.round, ?_,
    fun x hx => hinv x (hperm.mem_iff.1 hx), hperm.mem_iff.2 (hsub leader (by simp)), ?_,
    t.alreadyOrdered, hnodup, hseen, (hperm.map _).trans hdigests⟩
  · rw [orderFrom, if_neg hround, heq]
    rfl
  · exact List.pairwise_insertionSort _ _

end

end Chase.Narwhal
