import Bebop.Lib.Fallible

/-!
# Programs that make requests

A program asks for something again and again, and whether the request number `k` is
granted is `grants k`. `Asks m n` says that the program `m` makes `n` requests: it ends if
all are granted, and fails otherwise (`Asks.ends_iff`).
-/

namespace Requests

open Fallible

variable {ε α β : Type} {grants : Nat → Bool} {refused : ε}

/-- A request; the state is the number of requests so far. -/
def request (grants : Nat → Bool) (refused : ε) : StateT Nat (Except ε) Unit := fun asked =>
  if grants asked then .ok ((), asked + 1) else .error refused

/-- The program makes `n` requests, and ends if and only if they are granted. -/
structure Asks (grants : Nat → Bool) (refused : ε) (m : StateT Nat (Except ε) α) (n : Nat) : Prop where
  ends : ∀ asked, (∀ k < n, grants (asked + k)) → ∃ a, m asked = .ok (a, asked + n)
  fails : ∀ asked, (∃ k < n, ¬grants (asked + k)) → m asked = .error refused

variable {m : StateT Nat (Except ε) α} {f : α → StateT Nat (Except ε) β} {n n' : Nat}

theorem asks_request : Asks grants refused (request grants refused) 1 := by
  constructor
  · intro asked hall
    exact ⟨(), if_pos (hall 0 Nat.zero_lt_one)⟩
  · rintro asked ⟨k, hk, hrefused⟩
    obtain rfl := Nat.lt_one_iff.mp hk
    exact if_neg hrefused

theorem Asks.pure (a : α) : Asks grants refused (Pure.pure a) 0 := by
  constructor
  · exact fun asked _ => ⟨a, rfl⟩
  · rintro asked ⟨k, hk, -⟩
    exact absurd hk (Nat.not_lt_zero k)

theorem Asks.bind (h : Asks grants refused m n) (h' : ∀ a, Asks grants refused (f a) n') :
    Asks grants refused (m >>= f) (n + n') := by
  constructor
  · intro asked hall
    obtain ⟨a, ha⟩ := h.ends asked fun k hk => hall k (by omega)
    obtain ⟨b, hb⟩ := (h' a).ends (asked + n) fun k hk => by
      rw [Nat.add_assoc]
      exact hall (n + k) (by omega)
    refine ⟨b, ?_⟩
    rw [run_bind_of_ok ha, hb, Nat.add_assoc]
  · rintro asked ⟨k, hk, hrefused⟩
    by_cases hfirst : ∀ k < n, grants (asked + k)
    · obtain ⟨a, ha⟩ := h.ends asked hfirst
      have hlate : n ≤ k := Nat.le_of_not_lt fun hlt => hrefused (hfirst k hlt)
      rw [run_bind_of_ok ha]
      refine (h' a).fails (asked + n) ⟨k - n, by omega, ?_⟩
      rwa [Nat.add_assoc, Nat.add_sub_cancel' hlate]
    · refine run_bind_of_error (h.fails asked ?_)
      by_contra hnone
      exact hfirst fun k hk => by_contra fun hrefused => hnone ⟨k, hk, hrefused⟩

/-- Nothing is asked for behind the program. -/
theorem Asks.map (h : Asks grants refused m n) (g : α → β) : Asks grants refused (m >>= fun a => Pure.pure (g a)) n :=
  h.bind fun a => .pure (g a)

theorem Asks.ite {p : Prop} [Decidable p] {m' : StateT Nat (Except ε) α} (h : p → Asks grants refused m n)
    (h' : ¬p → Asks grants refused m' n') : Asks grants refused (if p then m else m') (if p then n else n') := by
  split
  · exact h ‹_›
  · exact h' ‹_›

theorem Asks.unless {p : Prop} [Decidable p] {a : α} (h : ¬p → Asks grants refused m n) :
    Asks grants refused (if p then Pure.pure a else m) (if p then 0 else n) := .ite (fun _ => .pure a) h

theorem Asks.ends_iff (h : Asks grants refused m n) (asked : Nat) :
    (∃ a asked', m asked = .ok (a, asked')) ↔ ∀ k < n, grants (asked + k) := by
  constructor
  · rintro ⟨a, asked', hrun⟩ k hk
    by_contra hrefused
    rw [h.fails asked ⟨k, hk, hrefused⟩] at hrun
    cases hrun
  · intro hall
    obtain ⟨a, hrun⟩ := h.ends asked hall
    exact ⟨a, _, hrun⟩

end Requests
