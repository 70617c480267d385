import SkegRigging.Library.PartialKeys
import SkegRigging.Rigging.MockSearch

/-!
# The comparator of the search

`query_filtered` sorts its hits with `partial_cmp(..).unwrap_or(Equal)`, and `sort_by` requires a
total preorder. A NaN is then equal to every similarity, so two different ones beside it break
transitivity. `ranking_consistent_iff` is the exact condition.
-/

set_option autoImplicit false

namespace SkegRigging.MockTenant

variable {F S : Type} [LinearOrder S]

/-- The comparator that is passed to `sort_by`. -/
def ranking (o : F32 F S) (a b : Hit F F) : Ordering :=
  (o.partialCmp b.similarity a.similarity).getD .eq

/-- What `sort_by` requires of its comparator on the elements of a list: it is a total preorder. -/
def Consistent (o : F32 F S) (hits : List (Hit F F)) : Prop :=
  Std.TransCmp fun a b : {hit // hit ∈ hits} => ranking o a.1 b.1

/-- The similarities of the query to the records that are numbers, are one number. -/
def OneSimilarity (o : F32 F S) (embedding : List F) (records : List (MockRecord F)) : Prop :=
  ∀ r ∈ records, ∀ r' ∈ records, ∀ s s' x y, o.cosine embedding r.embedding = .ok s →
    o.cosine embedding r'.embedding = .ok s' → o.value s = some x → o.value s' = some y → x = y

variable {o : F32 F S} {embedding : List F} {filter : Filter} {records : List (MockRecord F)}
  {hits : List (Hit F F)}

/-- The sort of the search is the one by this comparator. -/
theorem notAfter_eq_isLE (a b : Hit F F) : notAfter o a b = (ranking o a b).isLE := by
  rw [notAfter, ranking]
  cases (o.partialCmp b.similarity a.similarity).getD .eq <;> rfl

/-- The key of a hit is the number that its similarity stands for; the larger one comes first. -/
theorem ranking_eq (a b : Hit F F) :
    ranking o a b = PartialKeys.compareKeys (fun hit : Hit F F => o.value hit.similarity) b a := by
  rw [ranking, F32.partialCmp, PartialKeys.compareKeys]
  cases o.value b.similarity with
  | none => rfl
  | some x => cases o.value a.similarity <;> rfl

theorem consistent_iff : Consistent o hits ↔
    (∀ hit ∈ hits, (o.value hit.similarity).isSome = true) ∨
      PartialKeys.Constant (fun hit : Hit F F => o.value hit.similarity) hits := by
  rw [← PartialKeys.transCmp_iff, Consistent]
  simp only [ranking_eq]
  constructor
  · intro h
    exact h.opposite
  · intro h
    exact h.opposite

/-- The hits are the accepted records with their similarities. -/
theorem scores_of_collectHits (h : collectHits o embedding filter records = .ok hits) :
    List.Forall₂ (Scores o embedding) (records.filter fun r => filter (metaOf r)) hits := by
  induction records generalizing hits with
  | nil =>
    rw [collectHits, Except.ok.injEq] at h
    rw [← h]
    exact List.Forall₂.nil
  | cons r rs ih =>
    rw [collectHits] at h
    cases hacc : filter (metaOf r) with
    | false =>
      rw [List.filter_cons_of_neg (by simp [hacc])]
      rw [hacc, if_neg Bool.false_ne_true] at h
      exact ih h
    | true =>
      have hkeep : (r :: rs).filter (fun r => filter (metaOf r)) =
          r :: rs.filter fun r => filter (metaOf r) := List.filter_cons_of_pos hacc
      rw [hkeep]
      rw [hacc, if_pos rfl] at h
      split at h
      · cases h
      · rename_i s hs
        split at h
        · cases h
        · rename_i rest hrest
          rw [← Except.ok.inj h]
          exact List.Forall₂.cons ⟨hs, rfl⟩ (ih hrest)

/-- For the accepted records of a tenant, the comparator is a total preorder exactly when no
similarity is a NaN, or the similarities that are numbers are one number. -/
theorem ranking_consistent_iff (h : collectHits o embedding filter records = .ok hits) :
    Consistent o hits ↔ NoNaN o embedding (records.filter fun r => filter (metaOf r)) ∨
      OneSimilarity o embedding (records.filter fun r => filter (metaOf r)) := by
  have hscores := scores_of_collectHits h
  rw [consistent_iff]
  apply or_congr
  · constructor
    · intro hall r hr s hs
      obtain ⟨hit, hhit, hscore, -⟩ := exists_hit_of_record hscores hr
      rw [hs, Except.ok.injEq] at hscore
      rw [hscore]
      exact hall hit hhit
    · intro hnan hit hhit
      obtain ⟨r, hr, hscore, -⟩ := exists_record_of_hit hscores hhit
      exact hnan r hr _ hscore
  · constructor
    · intro hconstant r hr r' hr' s s' x y hs hs' hx hy
      obtain ⟨a, ha, hscore, -⟩ := exists_hit_of_record hscores hr
      obtain ⟨b, hb, hscore', -⟩ := exists_hit_of_record hscores hr'
      rw [hs, Except.ok.injEq] at hscore
      rw [hs', Except.ok.injEq] at hscore'
      rw [hscore] at hx
      rw [hscore'] at hy
      exact hconstant a ha b hb x y hx hy
    · intro hone a ha b hb x y hx hy
      obtain ⟨r, hr, hscore, -⟩ := exists_record_of_hit hscores ha
      obtain ⟨r', hr', hscore', -⟩ := exists_record_of_hit hscores hb
      exact hone r hr r' hr' _ _ x y hscore hscore' hx hy

/-! ## A NaN between two numbers -/

/-- Integers and a NaN as floats. -/
def nanFloats : F32 (Option Int) Int where
  zero := some 0
  add := Option.map₂ (· + ·)
  mul := Option.map₂ (· * ·)
  div := Option.map₂ (· / ·)
  sqrt := id
  value := id

/-- A note, one whose embedding is a NaN, and one of the opposite direction. -/
def threeNotes : List (Bus.Op (Option Int)) :=
  [.insert ⟨⟨1⟩, [some 1], true, [], [1]⟩, .insert ⟨⟨2⟩, [none], true, [], [2]⟩,
    .insert ⟨⟨3⟩, [some (-1)], true, [], [3]⟩]

/-- The similarities are 1, NaN and -1: the NaN is equal to both others, which differ. -/
theorem ranking_inconsistent_threeNotes :
    ∃ hits, collectHits nanFloats [some 1] (fun _ => true)
        (Runs.run Bus.step (Bus.init .zero 1) threeNotes).tenant.records = .ok hits ∧
      hits.map Hit.similarity = [some 1, none, some (-1)] ∧ ¬Consistent nanFloats hits := by
  let first := hitOf (⟨⟨1⟩, [some 1], true, [], [1]⟩ : MockRecord (Option Int)) (some 1)
  let second := hitOf (⟨⟨2⟩, [none], true, [], [2]⟩ : MockRecord (Option Int)) none
  let third := hitOf (⟨⟨3⟩, [some (-1)], true, [], [3]⟩ : MockRecord (Option Int)) (some (-1))
  refine ⟨[first, second, third], rfl, rfl, fun h => ?_⟩
  have hequal : ranking nanFloats first third = .eq :=
    h.eq_trans (a := ⟨first, by simp⟩) (b := ⟨second, by simp⟩) (c := ⟨third, by simp⟩) rfl rfl
  have hless : ranking nanFloats first third = .lt := by decide
  rw [hless] at hequal
  cases hequal

/-- Without the NaN. -/
theorem ranking_consistent_iff_fourNotes :
    ∃ hits, collectHits wholeFloats [1] (fun _ => true)
        (Runs.run Bus.step (Bus.init .zero 1) fourNotes).tenant.records = .ok hits ∧
      Consistent wholeFloats hits := by
  obtain ⟨hits, hcollect⟩ : ∃ hits, collectHits wholeFloats [1] (fun _ => true)
      (Runs.run Bus.step (Bus.init .zero 1) fourNotes).tenant.records = .ok hits := ⟨_, rfl⟩
  refine ⟨hits, hcollect, (ranking_consistent_iff hcollect).2 (Or.inl ?_)⟩
  intro r hr s hs
  rfl

end SkegRigging.MockTenant
