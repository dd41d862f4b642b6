import Mathlib.Data.List.Destutter
import Mathlib.Data.List.Nodup
import Mathlib.Data.String.Basic
import MailSieve.Proofs.Alternatives.Kind

/-! The order of alternatives in a report.
The list that is kept ascends by description and has just the alternatives that were given. An
alternative that was given twice is kept once, unless another with the same description was given in
between: sorting leaves the three where they are, and only equal neighbours count once. -/

namespace MailSieve

open scoped List

namespace Expected

/-- An alternative is given again behind another one with the same description. -/
def Interleaved (es : List Expected) : Prop :=
  ∃ e f, e ≠ f ∧ e.description = f.description ∧ [e, f, e] <+ es

section Merge

variable {e f : Expected} {es fs : List Expected}

/-- Merging leaves out what stands behind its equal. -/
theorem merge_eq_destutter (es : List Expected) : merge es = es.destutter (· ≠ ·) := by
  fun_induction merge es with
  | case1 | case2 => rfl
  | case3 e es ih =>
    rw [ih, List.destutter_cons_cons, if_neg (not_not_intro rfl), List.destutter_cons']
  | case4 e f es hne ih =>
    rw [ih, List.destutter_cons_cons, if_pos hne, List.destutter_cons']

theorem merge_sublist (es : List Expected) : merge es <+ es := by
  rw [merge_eq_destutter]
  exact List.destutter_sublist _ es

theorem isChain_merge (es : List Expected) : (merge es).IsChain (· ≠ ·) := by
  rw [merge_eq_destutter]
  exact List.isChain_destutter _ es

theorem sublist_merge (hfs : fs.IsChain (· ≠ ·)) (h : fs <+ es) : fs <+ merge es := by
  fun_induction merge es generalizing fs with
  | case1 | case2 => exact h
  | case3 e es ih =>
    refine ih hfs ?_
    cases h with
    | cons _ h => exact h
    | cons_cons _ h =>
      cases h with
      | cons _ h => exact h.cons_cons e
      | cons_cons _ h => exact absurd rfl (List.isChain_cons_cons.1 hfs).1
  | case4 e f es hne ih =>
    cases h with
    | cons _ h => exact (ih hfs h).cons e
    | cons_cons _ h => exact (ih hfs.tail h).cons_cons e

/-- Where no neighbours are equal, equal entries have another one between them. -/
theorem nodup_iff_of_isChain (h : es.IsChain (· ≠ ·)) :
    es.Nodup ↔ ∀ e f, e ≠ f → ¬ [e, f, e] <+ es := by
  constructor
  · intro hnodup e f _ hsub
    have htwice : [e, e] <+ es := (((List.Sublist.refl [e]).cons f).cons_cons e).trans hsub
    exact List.nodup_iff_sublist.1 hnodup e htwice
  · intro hno
    rw [List.nodup_iff_sublist]
    intro e htwice
    induction es with
    | nil => cases htwice
    | cons d es ih =>
      cases htwice with
      | cons _ htwice =>
        exact ih h.tail (fun e f hne hsub => hno e f hne (hsub.cons d)) htwice
      | cons_cons _ hback =>
        cases es with
        | nil => cases hback
        | cons f es =>
          have hne : e ≠ f := (List.isChain_cons_cons.1 h).1
          cases hback with
          | cons _ hback => exact hno e f hne ((hback.cons_cons f).cons_cons e)
          | cons_cons _ _ => exact hne rfl

theorem nodup_merge_iff : (merge es).Nodup ↔ ∀ e f, e ≠ f → ¬ [e, f, e] <+ es := by
  rw [nodup_iff_of_isChain (isChain_merge es)]
  refine forall₃_congr fun e f hne => not_congr ⟨fun h => h.trans (merge_sublist es), fun h => ?_⟩
  exact sublist_merge (by simp [hne, hne.symm]) h

end Merge

section Sorting

variable {e f : Expected} {es : List Expected}

def describedLE (e f : Expected) : Bool := decide (e.description ≤ f.description)

theorem describedLE_trans (e f g : Expected) (h : describedLE e f) (k : describedLE f g) :
    describedLE e g := by
  simp only [describedLE, decide_eq_true_eq] at h k ⊢
  exact le_trans h k

theorem describedLE_total (e f : Expected) : describedLE e f || describedLE f e := by
  simpa [describedLE] using le_total e.description f.description

theorem pairwise_sort (es : List Expected) :
    (sort es).Pairwise fun e f => e.description ≤ f.description := by
  have h := List.pairwise_mergeSort describedLE_trans describedLE_total es
  exact h.imp fun h => of_decide_eq_true h

theorem filter_sort (es : List Expected) (text : String) :
    (sort es).filter (·.description = text) = es.filter (·.description = text) := by
  have hequal : (es.filter (·.description = text)).Pairwise (describedLE · ·) := by
    refine List.pairwise_iff_forall_sublist.2 fun {e f} hsub => ?_
    have he := List.of_mem_filter (hsub.subset List.mem_cons_self)
    have hf := List.of_mem_filter (hsub.subset (List.mem_cons_of_mem _ List.mem_cons_self))
    simp only [decide_eq_true_eq] at he hf
    simp [describedLE, he, hf]
  have hsub : es.filter (·.description = text) <+ (sort es).filter (·.description = text) := by
    have h := (List.sublist_mergeSort describedLE_trans describedLE_total hequal
      List.filter_sublist).filter (·.description = text)
    rwa [List.filter_filter, funext fun e : Expected => Bool.and_self _] at h
  have hperm := (List.mergeSort_perm es describedLE).filter (·.description = text)
  exact (hsub.eq_of_length hperm.length_eq.symm).symm

/-- Sorting brings two alternatives no nearer to each other than one with the same description
that stands between them. -/
theorem sublist_sort_iff :
    [e, f, e] <+ sort es ↔ e.description = f.description ∧ [e, f, e] <+ es := by
  constructor
  · intro h
    have hsorted := (pairwise_sort es).sublist h
    simp only [List.pairwise_cons, List.mem_cons, forall_eq_or_imp] at hsorted
    have htext : e.description = f.description := le_antisymm hsorted.1.1 hsorted.2.1.1
    have hall : [e, f, e].filter (·.description = e.description) = [e, f, e] := by simp [htext]
    have hfilter := h.filter (·.description = e.description)
    rw [filter_sort, hall] at hfilter
    exact ⟨htext, hfilter.trans List.filter_sublist⟩
  · rintro ⟨htext, h⟩
    refine List.sublist_mergeSort describedLE_trans describedLE_total ?_ h
    simp [describedLE, htext]

theorem nodup_arrange_iff : (arrange es).Nodup ↔ ¬ Interleaved es := by
  rw [arrange, nodup_merge_iff]
  constructor
  · rintro h ⟨e, f, hne, htext, hsub⟩
    exact h e f hne (sublist_sort_iff.2 ⟨htext, hsub⟩)
  · intro h e f hne hsub
    obtain ⟨htext, hsub⟩ := sublist_sort_iff.1 hsub
    exact h ⟨e, f, hne, htext, hsub⟩

end Sorting

/-- What is kept of the alternatives `es`: the same ones, ascending by description. None is kept
twice, exactly unless one was given again behind another one with the same description. -/
structure KeptFrom (es stored : List Expected) : Prop where
  ascending : stored.Pairwise fun e f => e.description ≤ f.description
  entries : ∀ e, e ∈ stored ↔ e ∈ es
  once : stored.Nodup ↔ ¬ Interleaved es

theorem arrange_keptFrom (es : List Expected) : KeptFrom es (arrange es) where
  ascending := (pairwise_sort es).sublist (merge_sublist _)
  entries _ := mem_arrange
  once := nodup_arrange_iff

end Expected

namespace Diagnostic

open Expected

/-- Both ways in which a report gets its alternatives keep them so. -/
theorem expected_keptFrom (location : Location) (found : Option String) (d : Diagnostic)
    (es : List Expected) : KeptFrom es (unexpected location found es).expected
      ∧ KeptFrom es (d.withExpected es).expected :=
  ⟨arrange_keptFrom es, arrange_keptFrom es⟩

/-- A mark and a class that is called as the mark is written: the mark is kept twice. -/
theorem not_nodup_expected_quoted :
    ¬ (unexpected ⟨.origin, .origin⟩ none
      [literal "a", tokenClass "\"a\"", literal "a"]).expected.Nodup := fun h =>
  nodup_arrange_iff.1 h ⟨literal "a", tokenClass "\"a\"", nofun, rfl, .refl _⟩

end Diagnostic

end MailSieve
