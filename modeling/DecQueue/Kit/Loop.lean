import Mathlib.Data.List.Count
import Mathlib.Tactic.Common

/-! # Loops whose turns keep out of each other's way

A loop over items with keys. What is seen of the state under a key is changed
by the turn of that item alone, so every item finds what was there before the
loop, and leaves what is there after it. -/

namespace Kit.Loop

variable {σ α κ β : Type*}

/-- One turn: it keeps `P`, relates what was seen under the key of its item to
what is seen after it, and adds one to the total if the item counts. -/
structure Turn (key : α → κ) (look : σ → κ → β) (P : σ → Prop) (R : α → β → β → Prop)
    (total : σ → Nat) (counts : α → β → Bool) (a : α) (s s' : σ) : Prop where
  keeps : P s'
  own : R a (look s (key a)) (look s' (key a))
  other : ∀ k, k ≠ key a → look s' k = look s k
  total : total s' = total s + if counts a (look s (key a)) then 1 else 0

section
variable {key : α → κ} {look : σ → κ → β} {P : σ → Prop} {C : α → β → Prop}
  {R : α → β → β → Prop} {total : σ → Nat} {counts : α → β → Bool} {body : σ → α → σ} {l : List α} {s : σ}

/-- The whole loop: each item is related as by its own turn, from what was
seen before the loop to what is seen after it. -/
theorem foldl_turns
    (hturn : ∀ s a, P s → a ∈ l → C a (look s (key a)) → Turn key look P R total counts a s (body s a))
    (hkeys : (l.map key).Nodup) (hs : P s) (hC : ∀ a ∈ l, C a (look s (key a))) :
    P (l.foldl body s) ∧ (∀ a ∈ l, R a (look s (key a)) (look (l.foldl body s) (key a))) ∧
      (∀ k, k ∉ l.map key → look (l.foldl body s) k = look s k) ∧
      total (l.foldl body s) = total s + l.countP fun a => counts a (look s (key a)) := by
  induction l generalizing s with
  | nil => exact ⟨hs, fun a ha => absurd ha List.not_mem_nil, fun k _ => rfl, rfl⟩
  | cons a l ih =>
    obtain ⟨hfresh, hkeys⟩ := List.nodup_cons.mp hkeys
    obtain ⟨hkeeps, hown, hother, htotal⟩ :=
      hturn s a hs (List.mem_cons_self ..) (hC a (List.mem_cons_self ..))
    -- the later items see what they would have seen before this turn
    have hsame : ∀ b ∈ l, look (body s a) (key b) = look s (key b) :=
      fun b hb => hother _ fun he => hfresh (he ▸ List.mem_map_of_mem hb)
    obtain ⟨hP, hitems, hrest, hsum⟩ := ih (fun t b ht hb => hturn t b ht (List.mem_cons_of_mem a hb))
      hkeys hkeeps fun b hb => hsame b hb ▸ hC b (List.mem_cons_of_mem a hb)
    refine ⟨hP, ?_, fun k hk => ?_, ?_⟩
    · intro b hb
      rcases List.mem_cons.mp hb with rfl | hb
      · show R b _ (look (l.foldl body (body s b)) (key b))
        rw [hrest _ hfresh]
        exact hown
      · exact hsame b hb ▸ hitems b hb
    · rw [List.map_cons, List.mem_cons, not_or] at hk
      exact (hrest k hk.2).trans (hother k hk.1)
    · have hcount : l.countP (fun b => counts b (look (body s a) (key b))) =
          l.countP fun b => counts b (look s (key b)) :=
        List.countP_congr fun b hb => by rw [hsame b hb]
      show total (l.foldl body (body s a)) = _
      rw [hsum, hcount, htotal, List.countP_cons]
      omega

end

end Kit.Loop
