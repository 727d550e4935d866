import Mathlib

/-!
# Chains of cells

`next` leads from cell to cell, and out of the cells in the end. What the chain is
depends only on where its own cells lead.
-/

namespace Chains

variable {α : Type} {next next' : α → α} {P : α → Prop}

def Chain (next : α → α) (P : α → Prop) : α → List α → α → Prop
  | a, [], m => a = m
  | a, c :: l, m => a = c ∧ P c ∧ Chain next P (next c) l m

namespace Chain

theorem mem (h : Chain next P a l m) (hc : c ∈ l) : P c := by
  induction l generalizing a with
  | nil => cases hc
  | cons d l ih =>
    obtain ⟨-, hd, hl⟩ := h
    rcases List.mem_cons.mp hc with rfl | hc
    · exact hd
    · exact ih hl hc

theorem frame (h : Chain next P a l m) (hn : ∀ c ∈ l, next' c = next c) : Chain next' P a l m := by
  induction l generalizing a with
  | nil => exact h
  | cons c l ih =>
    obtain ⟨rfl, hc, hl⟩ := h
    refine ⟨rfl, hc, ?_⟩
    rw [hn a List.mem_cons_self]
    exact ih hl fun d hd => hn d (List.mem_cons_of_mem _ hd)

theorem append : Chain next P a (l ++ l') m ↔ ∃ b, Chain next P a l b ∧ Chain next P b l' m := by
  induction l generalizing a with
  | nil => exact ⟨fun h => ⟨a, rfl, h⟩, by rintro ⟨_, rfl, h⟩; exact h⟩
  | cons c l ih =>
    constructor
    · rintro ⟨rfl, hc, hl⟩
      obtain ⟨b, hb, hl'⟩ := ih.mp hl
      exact ⟨b, ⟨rfl, hc, hb⟩, hl'⟩
    · rintro ⟨b, ⟨rfl, hc, hb⟩, hl'⟩
      exact ⟨rfl, hc, ih.mpr ⟨b, hb, hl'⟩⟩

theorem unique (h : Chain next P a l m) (h' : Chain next P a l' m') (hm : ¬ P m) (hm' : ¬ P m') :
    l = l' ∧ m = m' := by
  induction l generalizing a l' with
  | nil =>
    cases l' with
    | nil => exact ⟨rfl, Eq.trans (Eq.symm h) h'⟩
    | cons c l' =>
      obtain ⟨rfl, hc, -⟩ := h'
      exact absurd (h ▸ hc) hm
  | cons c l ih =>
    obtain ⟨rfl, hc, hl⟩ := h
    cases l' with
    | nil => exact absurd (Eq.symm h' ▸ hc) hm'
    | cons d l' =>
      obtain ⟨rfl, -, hl'⟩ := h'
      obtain ⟨rfl, rfl⟩ := ih hl hl'
      exact ⟨rfl, rfl⟩

theorem nodup (h : Chain next P a l m) (hm : ¬ P m) : l.Nodup := by
  induction l generalizing a with
  | nil => exact List.nodup_nil
  | cons c l ih =>
    have hc := h
    obtain ⟨rfl, -, hl⟩ := h
    refine List.nodup_cons.mpr ⟨fun hmem => ?_, ih hl⟩
    obtain ⟨l₁, l₂, rfl⟩ := List.append_of_mem hmem
    obtain ⟨b, -, hb⟩ := append.mp hl
    rw [hb.1] at hb
    -- the rest of the chain is also the whole of it
    have hlen := congrArg List.length (hc.unique hb hm hm).1
    simp at hlen
    omega

theorem iterate (h : Chain next P a l m) : next^[l.length] a = m := by
  induction l generalizing a with
  | nil => exact h
  | cons c l ih =>
    obtain ⟨rfl, -, hl⟩ := h
    exact ih hl

theorem get (h : Chain next P a l m) (hi : i < l.length) : l[i] = next^[i] a := by
  induction l generalizing a i with
  | nil => cases hi
  | cons c l ih =>
    obtain ⟨rfl, -, hl⟩ := h
    cases i with
    | zero => rfl
    | succ i => exact ih hl (Nat.lt_of_succ_lt_succ hi)

end Chain

end Chains
