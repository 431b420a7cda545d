import Mathlib.Data.List.Chain
import Mathlib.Data.List.Nodup

/-!
# Rounds that retake what they do not settle

Each round takes some things and settles some of them. What is settled is never taken again, and
what is not is taken again by the next round. Then each thing is settled at most once, and taken
at most once exactly if every round but the last one settles all that it takes.
-/

namespace Retaking

variable {β γ : Type*}

/-- Rounds, each of things taken with some outcome; `key` tells the thing. -/
structure Retaken (key : β → γ) (Settled : β → Prop) (rounds : List (List β)) : Prop where
  nodup : ∀ r ∈ rounds, (r.map key).Nodup
  settled : rounds.Pairwise fun r r' => ∀ b ∈ r, Settled b → key b ∉ r'.map key
  again : rounds.IsChain fun r r' => ∀ b ∈ r, ¬Settled b → key b ∈ r'.map key

variable {key : β → γ} {Settled : β → Prop} {rounds : List (List β)}

/-- Nothing was taken at first. -/
theorem retaken_nil : Retaken key Settled [] :=
  ⟨fun _ h => absurd h List.not_mem_nil, List.Pairwise.nil, List.isChain_nil⟩

/-- One more round. -/
theorem Retaken.concat (h : Retaken key Settled rounds) {round : List β}
    (hnodup : (round.map key).Nodup)
    (hsettled : ∀ r ∈ rounds, ∀ b ∈ r, Settled b → key b ∉ round.map key)
    (hagain : ∀ r ∈ rounds.getLast?, ∀ b ∈ r, ¬Settled b → key b ∈ round.map key) :
    Retaken key Settled (rounds ++ [round]) := by
  refine ⟨fun r hr => ?_, ?_, ?_⟩
  · rcases List.mem_append.mp hr with hold | hnew
    · exact h.nodup r hold
    · rwa [List.mem_singleton.mp hnew]
  · rw [List.pairwise_append]
    refine ⟨h.settled, List.pairwise_singleton _ _, fun r hr r' hr' => ?_⟩
    rw [List.mem_singleton.mp hr']
    exact hsettled r hr
  · refine h.again.append (List.isChain_singleton _) fun r hr r' hr' => ?_
    rw [List.head?_cons, Option.mem_some_iff] at hr'
    rw [← hr']
    exact hagain r hr

/-- Later rounds take again what they should. -/
theorem Retaken.tail {round : List β} (h : Retaken key Settled (round :: rounds)) :
    Retaken key Settled rounds :=
  ⟨fun r hr => h.nodup r (List.mem_cons_of_mem _ hr), (List.pairwise_cons.mp h.settled).2,
    h.again.tail⟩

/-- Leaving out things altogether. -/
theorem Retaken.filter (h : Retaken key Settled rounds) {p : β → Prop} [DecidablePred p]
    (hp : ∀ r ∈ rounds, ∀ b ∈ r, p b → ∀ r' ∈ rounds, ∀ b' ∈ r', key b' = key b → p b') :
    Retaken key Settled (rounds.map fun r => r.filter fun b => p b) := by
  refine ⟨fun r' hr' => ?_, ?_, ?_⟩
  · obtain ⟨r, hr, rfl⟩ := List.mem_map.mp hr'
    exact (h.nodup r hr).sublist (List.filter_sublist.map key)
  · rw [List.pairwise_map]
    apply h.settled.imp
    intro r r' hsettled b hb hset hin
    obtain ⟨b', hb', hkey⟩ := List.mem_map.mp hin
    apply hsettled b (List.mem_filter.mp hb).1 hset
    exact List.mem_map.mpr ⟨b', (List.mem_filter.mp hb').1, hkey⟩
  · rw [List.isChain_map]
    apply h.again.imp_of_mem_imp
    intro r r' hr hr' hagain b hb hnot
    obtain ⟨hmem, hpb⟩ := List.mem_filter.mp hb
    obtain ⟨b', hb', hkey⟩ := List.mem_map.mp (hagain b hmem hnot)
    have hpb' := hp r hr b hmem (of_decide_eq_true hpb) r' hr' b' hb' hkey
    exact List.mem_map.mpr ⟨b', List.mem_filter.mpr ⟨hb', decide_eq_true hpb'⟩, hkey⟩

/-- Nothing is taken twice exactly if every round but the last one settles all that it takes. -/
theorem Retaken.nodup_iff (h : Retaken key Settled rounds) :
    (rounds.flatten.map key).Nodup ↔ ∀ r ∈ rounds.dropLast, ∀ b ∈ r, Settled b := by
  induction rounds with
  | nil => exact ⟨fun _ r hr => absurd hr List.not_mem_nil, fun _ => List.nodup_nil⟩
  | cons round rest ih =>
    cases rest with
    | nil =>
      have hfirst := h.nodup round List.mem_cons_self
      refine ⟨fun _ r hr => absurd hr List.not_mem_nil, fun _ => ?_⟩
      rwa [List.flatten_cons, List.flatten_nil, List.append_nil]
    | cons next rest =>
      have hfirst := h.nodup round List.mem_cons_self
      have hagain := (List.isChain_cons_cons.mp h.again).1
      have hsettled := (List.pairwise_cons.mp h.settled).1
      have hdrop : (round :: next :: rest).dropLast = round :: (next :: rest).dropLast := rfl
      rw [List.flatten_cons, List.map_append, List.nodup_append', ih h.tail, hdrop,
        List.forall_mem_cons]
      constructor
      · rintro ⟨-, hlater, hdisjoint⟩
        refine ⟨fun b hb => ?_, hlater⟩
        by_contra hnot
        apply hdisjoint (List.mem_map_of_mem hb)
        rw [List.flatten_cons, List.map_append]
        exact List.mem_append_left _ (hagain b hb hnot)
      · rintro ⟨hall, hlater⟩
        refine ⟨hfirst, hlater, fun k hk hk' => ?_⟩
        obtain ⟨b, hb, rfl⟩ := List.mem_map.mp hk
        obtain ⟨b', hb', hkey⟩ := List.mem_map.mp hk'
        obtain ⟨r, hr, hmem⟩ := List.mem_flatten.mp hb'
        exact hsettled r hr b hb (hall b hb) (List.mem_map.mpr ⟨b', hmem, hkey⟩)

end Retaking
