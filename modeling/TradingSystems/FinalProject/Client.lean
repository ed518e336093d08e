import TradingSystems.FinalProject.Server
import TradingSystems.Library.Formats

/- The broadcast text and the client that scans it. A pointer into the receive
   buffer is the part of the buffer from there on, so that a read beyond the buffer
   is a read from an empty list, which is a fault. -/
namespace FinalProject
open Decimal Formats Extraction

def securityText (e : Text × ℚ × ℚ) : Text :=
  "SEC|".toList ++ e.1 ++ "|BID|".toList ++ showGeneral 6 e.2.1 ++ "|ASK|".toList ++
    showGeneral 6 e.2.2

def challengeIdText (c : Challenge) : Text := "CHALLENGE_ID:".toList ++ showInt c.challengeId

def targetText (c : Challenge) : Text := "TARGET:".toList ++ c.targetTicker

/-- The text that the broadcast thread builds; the map is listed in iteration order. -/
def challengeMessage (c : Challenge) : Text :=
  c.marketData.flatMap (fun e => securityText e ++ ['\n']) ++ (challengeIdText c ++ ['\n']) ++
    (targetText c ++ ['\n'])

inductive Fault where
  | outOfBounds
  | outOfFuel
  deriving DecidableEq, Repr

def nul : Char := Char.ofNat 0

def deref : Text → Except Fault Char
  | c :: _ => .ok c
  | [] => .error .outOfBounds

def wholeLoop (value : ℚ) : Text → Except Fault (ℚ × Text)
  | [] => .error .outOfBounds
  | c :: p =>
    if c.isDigit then wholeLoop (value * 10 + (c.toNat - 48 : Nat)) p else .ok (value, c :: p)

def fracLoop (value place : ℚ) : Text → Except Fault (ℚ × Text)
  | [] => .error .outOfBounds
  | c :: p =>
    if c.isDigit then
      let place := place * (1 / 10)
      fracLoop (value + (c.toNat - 48 : Nat) * place) place p
    else .ok (value, c :: p)

def parseDouble (p : Text) : Except Fault (ℚ × Text) := do
  match ← wholeLoop 0 p with
  | (value, '.' :: p) => fracLoop value 1 p
  | (value, p) => return (value, p)

structure Entry where
  t : Text
  bid : ℚ
  ask : ℚ
  deriving DecidableEq

def copy7 (p : Text) : Except Fault Text :=
  if 7 ≤ p.length then .ok (p.take 7 ++ [nul]) else .error .outOfBounds

def startsWith (p literal : Text) : Except Fault Bool :=
  if literal.length ≤ p.length then .ok (p.take literal.length = literal)
  else .error .outOfBounds

def skipLine : Text → Except Fault Text
  | [] => .error .outOfBounds
  | c :: p => if c = nul then .ok (c :: p) else if c = '\n' then .ok p else skipLine p

def readEntry (p : Text) : Except Fault (Entry × Text) := do
  let p := p.drop 4
  let t ← copy7 p
  let p := p.drop 7
  let p := p.drop 5
  let (bid, p) ← parseDouble p
  let p := p.drop 1
  let p := p.drop 4
  let (ask, p) ← parseDouble p
  return (⟨t, bid, ask⟩, p)

def scanEntries : Nat → Text → List Entry → Except Fault (List Entry)
  | 0, _, _ => .error .outOfFuel
  | fuel + 1, p, entries => do
    let c ← deref p
    if c ≠ nul ∧ entries.length < 10 then
      if ← startsWith p "SEC|".toList then
        let (entry, p) ← readEntry p
        scanEntries fuel (← skipLine p) (entries ++ [entry])
      else scanEntries fuel (← skipLine p) entries
    else return entries

def strstr (literal : Text) : Text → Except Fault (Option Text)
  | [] => .error .outOfBounds
  | c :: p =>
    if c = nul then .ok none
    else if literal.isPrefixOf (c :: p) then .ok (some (c :: p)) else strstr literal p

/-- A value out of range is undefined in the source, so none is cut off here. -/
def atoi (p : Text) : Except Fault Int :=
  let (negative, p) := splitSign (p.dropWhile isSpace)
  if p.dropWhile Char.isDigit = [] then .error .outOfBounds
  else
    let n : Int := value (p.takeWhile Char.isDigit)
    .ok (if negative then -n else n)

def cString (p : Text) : Except Fault Text :=
  if nul ∈ p then .ok (p.takeWhile fun c => c ≠ nul) else .error .outOfBounds

structure Client where
  challengeId : Int
  target : Text

/-- `receive_from` over the previous bytes, and the terminator behind the datagram. -/
def receive (stale datagram : Text) : Except Fault Text :=
  if datagram.length < stale.length then
    .ok (datagram ++ nul :: stale.drop (datagram.length + 1))
  else .error .outOfBounds

def findEntry (entries : List Entry) (target : Text) : ℚ × ℚ :=
  match entries.find? (fun e => e.t = target) with
  | some e => (e.bid, e.ask)
  | none => (0, 0)

def answerLine (challengeId : Int) (target : Text) (bid ask : ℚ) (traderName : Text) : Text :=
  "CHALLENGE_RESPONSE ".toList ++ showInt challengeId ++ ' ' :: target ++ ' ' :: showFixed 6 bid ++
    ' ' :: showFixed 6 ask ++ ' ' :: traderName ++ ['\n']

/-- `snprintf` into the output array, of which no more is sent than it holds. -/
def sendAnswer (line : Text) : Text :=
  if line.length < 128 then line else line.take 127 ++ [nul]

/-- One turn of the client's loop: the entries it scanned and what it sent. -/
def handleDatagram (traderName : Text) (s : Client) (buf : Text) :
    Except Fault (Client × List Entry × Text) := do
  let entries ← scanEntries (buf.length + 1) buf []
  let challengeId ← match ← strstr "CHALLENGE_ID:".toList buf with
    | some p => atoi (p.drop 13)
    | none => pure s.challengeId
  let target ← match ← strstr "TARGET:".toList buf with
    | some p => copy7 (p.drop 7)
    | none => pure s.target
  let (bid, ask) := findEntry entries target
  let line := answerLine challengeId (← cString target) bid ask traderName
  return (⟨challengeId, target⟩, entries, sendAnswer line)

section ParseDouble
variable {ds rest : Text} {c : Char}

theorem value_cons (d : Char) (ds : Text) :
    value (d :: ds) = (d.toNat - 48) * 10 ^ ds.length + value ds := by
  rw [← List.singleton_append, value_append]
  simp [value, Nat.ofDigitChars_cons]

theorem fraction_cons (d : Char) (ds : Text) :
    fraction (d :: ds) = ((d.toNat - 48 : Nat) + fraction ds) / 10 := by
  simp only [fraction, value_cons, List.length_cons]
  push_cast
  rw [pow_succ]
  field_simp

theorem whole_loop (all : AllDigits ds) (stop : c.isDigit = false) (v : ℚ) :
    wholeLoop v (ds ++ c :: rest) = .ok (v * 10 ^ ds.length + value ds, c :: rest) := by
  induction ds generalizing v with
  | nil => simp [wholeLoop, stop]
  | cons d ds ih =>
    have digit := all d (by simp)
    rw [List.cons_append, wholeLoop, if_pos digit, ih fun e member => all e (by simp [member])]
    congr 2
    rw [value_cons, List.length_cons, pow_succ]
    push_cast
    ring

theorem frac_loop (all : AllDigits ds) (stop : c.isDigit = false) (v place : ℚ) :
    fracLoop v place (ds ++ c :: rest) = .ok (v + place * fraction ds, c :: rest) := by
  induction ds generalizing v place with
  | nil => simp [fracLoop, stop]
  | cons d ds ih =>
    have digit := all d (by simp)
    rw [List.cons_append, fracLoop, if_pos digit]
    dsimp only
    rw [ih fun e member => all e (by simp [member])]
    congr 2
    rw [fraction_cons]
    ring

theorem parse_double_whole {whole : Text} (all : AllDigits whole) (stop : c.isDigit = false)
    (point : c ≠ '.') : parseDouble (whole ++ c :: rest) = .ok ((value whole : ℚ), c :: rest) := by
  simp only [parseDouble, whole_loop all stop, bind, Except.bind]
  split
  · rename_i v p read
    cases read
    exact absurd rfl point
  · rename_i read
    cases read
    simp [pure, Except.pure]

theorem parse_double_pointed {whole frac : Text} (all : AllDigits whole)
    (behind : AllDigits frac) (stop : c.isDigit = false) :
    parseDouble (whole ++ '.' :: (frac ++ c :: rest)) =
      .ok ((value whole : ℚ) + fraction frac, c :: rest) := by
  have point : ('.' : Char).isDigit = false := rfl
  simp only [parseDouble, whole_loop all point, bind, Except.bind]
  rw [frac_loop behind stop]
  simp

theorem parse_double_numeral {whole frac : Text} (all : AllDigits whole) (behind : AllDigits frac)
    (stop : c.isDigit = false) (point : c ≠ '.') :
    parseDouble (whole ++ pointed frac ++ c :: rest) =
      .ok ((value whole : ℚ) + fraction frac, c :: rest) := by
  cases frac with
  | nil =>
    rw [pointed, if_pos rfl, List.append_nil, fraction_nil, add_zero]
    exact parse_double_whole all stop point
  | cons d ds =>
    rw [pointed, if_neg (List.cons_ne_nil d ds), List.append_assoc]
    exact parse_double_pointed all behind stop

end ParseDouble
end FinalProject
