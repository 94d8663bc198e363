/-
Words that can be told apart at the front of any longer word.

`Separated a b` says that neither of `a`, `b` is a proper prefix of the other,
in the form in which a decoder uses it: if `a` and `b` both start the same
word, they are equal.  The rules build separated words from separated parts:

* `Separated.cons`, `Separated.append` — a tag or a part, then the rest;
* `separated_of_length` — words of one fixed width;
* `Separated.flatten` — equally long lists of pairwise separated words;
* `isAntichain_of_separated` — a set of pairwise separated words is a prefix
  code, that is, an antichain in the prefix order.
-/
import Mathlib.Data.List.Infix
import Mathlib.Order.Antichain

namespace PrefixCode

variable {α : Type*} {a b a' b' : List α}

/-- Whenever `a` and `b` start the same word, they are equal. -/
def Separated (a b : List α) : Prop := ∀ r s, a ++ r = b ++ s → a = b

theorem Separated.symm (h : Separated a b) : Separated b a :=
  fun r s e => (h s r e.symm).symm

theorem Separated.refl (a : List α) : Separated a a := fun _ _ _ => rfl

theorem separated_iff : Separated a b ↔ (a <+: b ∨ b <+: a → a = b) := by
  constructor
  · rintro h (⟨t, rfl⟩ | ⟨t, rfl⟩)
    · exact h t [] (by simp)
    · exact h [] t (by simp)
  · intro h r s e
    exact h (List.prefix_or_prefix_of_prefix ⟨r, rfl⟩ ⟨s, e.symm⟩)

/-- After separated words, the rests agree as well. -/
theorem Separated.rest (h : Separated a b) {r s : List α} (e : a ++ r = b ++ s) :
    a = b ∧ r = s := by
  obtain rfl := h r s e
  exact ⟨rfl, List.append_cancel_left e⟩

theorem separated_of_length (h : a.length = b.length) : Separated a b :=
  fun _ _ e => (List.append_inj e h).1

theorem Separated.append (h : Separated a b) (h' : a = b → Separated a' b') :
    Separated (a ++ a') (b ++ b') := by
  intro r s e
  rw [List.append_assoc, List.append_assoc] at e
  obtain ⟨rfl, e'⟩ := h.rest e
  rw [(h' rfl) r s e']

theorem Separated.cons {x y : α} (h : x = y → Separated a b) :
    Separated (x :: a) (y :: b) :=
  Separated.append (a := [x]) (b := [y]) (separated_of_length rfl) fun e => h (by simpa using e)

theorem separated_of_head_ne {x y : α} (h : x ≠ y) : Separated (x :: a) (y :: b) :=
  Separated.cons fun e => absurd e h

/-- Equally long lists of pairwise separated words have separated
concatenations, and the concatenation determines the list. -/
theorem flatten_inj : ∀ {L M : List (List α)}, L.length = M.length →
    (∀ a ∈ L, ∀ b ∈ M, Separated a b) → ∀ {r s : List α},
      L.flatten ++ r = M.flatten ++ s → L = M
  | [], [], _, _, _, _, _ => rfl
  | a :: L, b :: M, hlen, hsep, r, s, e => by
    simp only [List.flatten_cons, List.append_assoc] at e
    obtain ⟨rfl, e'⟩ := (hsep a List.mem_cons_self b List.mem_cons_self).rest e
    have htail := flatten_inj (by simpa using hlen)
      (fun x hx y hy => hsep x (List.mem_cons_of_mem _ hx) y (List.mem_cons_of_mem _ hy)) e'
    rw [htail]

theorem Separated.flatten {L M : List (List α)} (hlen : L.length = M.length)
    (h : ∀ a ∈ L, ∀ b ∈ M, Separated a b) : Separated L.flatten M.flatten :=
  fun _ _ e => congrArg List.flatten (flatten_inj hlen h e)

/-- Pairwise separated words form a prefix code. -/
theorem isAntichain_of_separated {S : Set (List α)}
    (h : ∀ a ∈ S, ∀ b ∈ S, Separated a b) : IsAntichain (· <+: ·) S :=
  fun a ha b hb hne hpre => hne (separated_iff.mp (h a ha b hb) (.inl hpre))

end PrefixCode
