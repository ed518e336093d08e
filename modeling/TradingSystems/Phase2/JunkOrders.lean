import TradingSystems.Phase2.HitProtocol

/- What handleClient makes of a message that is no order. It takes whatever number atoi
   reads at the front, and zero where there is none, for the identifier of a price. -/
namespace Phase2.HitProtocol
open Decimal CString Runs FirstWins

def Server.handle (s : Server) (c : Nat) (buffer : Text) (now : Int) : Except Fault Server :=
  match atoi (cString buffer) with
  | none => .error .undefinedNumber
  | some receivedPriceId => .ok (s.hit c receivedPriceId now)

def Server.handleAll (s : Server) : List (Nat × Text × Int) → Except Fault Server
  | [] => .ok s
  | (c, buffer, now) :: rest => do (← s.handle c buffer now).handleAll rest

def Server.Names (s : Server) (buffer : Text) : Prop :=
  ∃ id, s.priceTimestamps id ≠ none ∧ buffer = orderMessage id

def Server.Misses (s : Server) (buffer : Text) : Prop :=
  ∃ id, atoi (cString buffer) = some id ∧ ¬ s.Open id

/-- The client is served on, and nothing is scored. -/
def Unscored (s : Server) (c : Nat) (buffer : Text) (now : Int) : Prop :=
  ∃ t, s.handle c buffer now = .ok t ∧ SameScore s t

section Rounds
variable {s t u : Server} {c : Nat} {id now : Int} {buffer : Text}

theorem hits_prefix (c : Nat) (now : Int) : s.hits <+: (s.hit c id now).hits := by
  by_cases opened : s.Open id
  · obtain ⟨stamp, present⟩ := Option.ne_none_iff_exists'.mp opened.2
    rw [(hit_open opened.1 present c now).2]
    exact List.prefix_append _ _
  · rw [(hit_closed opened c now).hits]

theorem handle_order (range : InInt id) :
    s.handle c (orderMessage id) now = .ok (s.hit c id now) := by
  have whole : cString (orderMessage id) = orderMessage id :=
    cString_whole.mpr (show_int_no_nul id)
  have read : atoi (orderMessage id) = some id := by
    simp [atoi, orderMessage, read_show_int, range]
  simp only [Server.handle, whole, read]

theorem wordless_reads_zero (wordless : readInt (cString buffer) = none) :
    atoi (cString buffer) = some 0 := by
  have range : InInt 0 := by decide
  simp [atoi, wordless, range]

theorem misses_of_hits (handled : s.handle c buffer now = .ok t) (kept : t.hits = s.hits) :
    s.Misses buffer := by
  unfold Server.handle at handled
  split at handled
  · cases handled
  · rename_i id read
    cases handled
    refine ⟨id, read, ?_⟩
    intro opened
    obtain ⟨stamp, present⟩ := Option.ne_none_iff_exists'.mp opened.2
    have scored := (hit_open opened.1 present c now).2
    rw [kept] at scored
    simp at scored

theorem unscored_iff : Unscored s c buffer now ↔ s.Misses buffer := by
  constructor
  · rintro ⟨t, handled, same⟩
    exact misses_of_hits handled same.hits
  · rintro ⟨id, read, closed⟩
    exact ⟨s.hit c id now, by simp [Server.handle, read], hit_closed closed c now⟩

theorem misses_of_same (same : SameScore s t) (stamps : t.priceTimestamps = s.priceTimestamps) :
    t.Misses buffer ↔ s.Misses buffer := by
  simp only [Server.Misses, Server.Open, same.priceAlreadyHit, stamps]

theorem handle_stamps (handled : s.handle c buffer now = .ok t) :
    t.priceTimestamps = s.priceTimestamps ∧ s.hits <+: t.hits := by
  unfold Server.handle at handled
  split at handled
  · cases handled
  · cases handled
    exact ⟨hit_stamps c now, hits_prefix c now⟩

theorem handle_all_cons {rounds : List (Nat × Text × Int)} :
    s.handleAll ((c, buffer, now) :: rounds) = .ok u ↔
      ∃ t, s.handle c buffer now = .ok t ∧ t.handleAll rounds = .ok u := by
  rw [Server.handleAll]
  cases s.handle c buffer now with
  | error fault => simp [bind, Except.bind]
  | ok t => simp [bind, Except.bind]

theorem handle_all_hits {rounds : List (Nat × Text × Int)} (handled : s.handleAll rounds = .ok t) :
    s.hits <+: t.hits := by
  induction rounds generalizing s with
  | nil =>
    cases handled
    exact List.prefix_refl _
  | cons round rounds ih =>
    obtain ⟨u, first, rest⟩ := handle_all_cons.mp handled
    exact (handle_stamps first).2.trans (ih rest)

theorem rounds_unscored_iff {rounds : List (Nat × Text × Int)} :
    (∃ t, s.handleAll rounds = .ok t ∧ SameScore s t) ↔ ∀ r ∈ rounds, s.Misses r.2.1 := by
  induction rounds generalizing s with
  | nil =>
    have nothing : s.handleAll [] = .ok s := rfl
    simpa using ⟨s, nothing, ⟨rfl, rfl⟩⟩
  | cons round rounds ih =>
    obtain ⟨c, buffer, now⟩ := round
    rw [List.forall_mem_cons]
    constructor
    · rintro ⟨u, handled, same⟩
      obtain ⟨t, first, rest⟩ := handle_all_cons.mp handled
      obtain ⟨stamps, before⟩ := handle_stamps first
      have after := handle_all_hits rest
      rw [same.hits] at after
      have kept : t.hits = s.hits := after.eq_of_length_le before.length_le
      have misses := misses_of_hits first kept
      obtain ⟨v, again, unscored⟩ := unscored_iff.mpr misses
      cases first.symm.trans again
      have others := ih.mp ⟨u, rest, same.priceAlreadyHit.trans unscored.priceAlreadyHit.symm,
        same.hits.trans unscored.hits.symm⟩
      exact ⟨misses, fun r member => (misses_of_same unscored stamps).mp (others r member)⟩
    · rintro ⟨misses, others⟩
      obtain ⟨t, first, same⟩ := unscored_iff.mpr misses
      have stamps := (handle_stamps first).1
      have later : ∀ r ∈ rounds, t.Misses r.2.1 := fun r member =>
        (misses_of_same same stamps).mpr (others r member)
      obtain ⟨u, rest, still⟩ := ih.mpr later
      exact ⟨u, handle_all_cons.mpr ⟨t, first, rest⟩,
        still.priceAlreadyHit.trans same.priceAlreadyHit, still.hits.trans same.hits⟩

/-- A body that is no order for a recorded price is harmless exactly when the number at
    its front is not that of an open price. -/
theorem junk_harmless_iff (s : Server) (c : Nat) (buffer : Text) (now : Int) :
    (¬ s.Names buffer → Unscored s c buffer now) ↔ s.Names buffer ∨ s.Misses buffer := by
  rw [unscored_iff, or_iff_not_imp_left]

/-- A greeting scores the first price. -/
theorem junk_not_harmless : ∃ s : Server,
    Run Server.Step .create [.connect, .takeId 500, .record 100] s ∧
      ¬ s.Names "hello".toList ∧ ¬ Unscored s 0 "hello".toList 200 := by
  have replayed : (replay Server.act .create [.connect, .takeId 500, .record 100]).map
      (fun s => (s.priceTimestamps 0, s.priceAlreadyHit)) = some (some 100, ∅) := by
    decide +kernel
  obtain ⟨s, done, tables⟩ := Option.map_eq_some_iff.mp replayed
  obtain ⟨stamp, fresh⟩ := Prod.mk.inj tables
  refine ⟨s, run_of_replay id done, ?_, ?_⟩
  · rintro ⟨id, _, same⟩
    have letter : 'h' ∈ orderMessage id := by
      rw [← same]
      decide
    rcases show_int_chars 'h' letter with sign | digit
    · cases sign
    · cases digit
  · rw [unscored_iff]
    rintro ⟨id, read, closed⟩
    have wordless : readInt (cString "hello".toList) = none := by decide +kernel
    have zero : id = 0 := Option.some.inj (read.symm.trans (wordless_reads_zero wordless))
    exact closed ⟨by simp [zero, fresh], by simp [zero, stamp]⟩

end Rounds
end Phase2.HitProtocol
