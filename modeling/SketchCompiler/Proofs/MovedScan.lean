/-
Scanning further down.  The scanner looks at characters and only carries
the place along, so a text scanned from a place `d` lines further down
yields the same tokens and the same findings, each `d` lines further down
(`scanFrom_down`).
-/
import SketchCompiler.Proofs.MovedDown

namespace SketchCompiler

variable {d : Nat}

-- ==== results

/-- A finding as many lines further down. -/
def Located.down {α : Type} (d : Nat) (l : Located α) : Located α :=
  { l with pos := l.pos.down d }

/-- A piece as many lines further down. -/
def Piece.down (d : Nat) (piece : Piece) : Piece :=
  { tokens := piece.tokens.map (Token.down d)
    errors := piece.errors.map (Located.down d)
    width := piece.width
    next := piece.next.down d }

/-- A scan as many lines further down. -/
def Scanned.down (d : Nat) (scanned : Scanned) : Scanned :=
  { tokens := scanned.tokens.map (Token.down d)
    errors := scanned.errors.map (Located.down d) }

theorem Pos.over_down (p : Pos) (cs : List Char) : (p.down d).over cs = (p.over cs).down d := by
  induction cs generalizing p with
  | nil => rfl
  | cons c cs ih =>
    have hpast : (p.down d).past c = (p.past c).down d := by
      by_cases hc : c = '\n'
      · rw [Pos.past, Pos.past, if_pos hc, if_pos hc]
        unfold Pos.nextLine Pos.down
        rw [Nat.add_right_comm]
      · rw [Pos.past_plain _ hc, Pos.past_plain _ hc]
        rfl
    rw [Pos.over_cons, hpast, ih, Pos.over_cons]

theorem Unplaced.place_down (u : Unplaced) (p : Pos) :
    u.place (p.down d) = (u.place p).down d := by
  simp only [Unplaced.place, Piece.down, Pos.over_down, List.map_map]
  rfl

theorem scanPiece_down (p : Pos) (c : Char) (rest : List Char) :
    scanPiece (p.down d) c rest = (scanPiece p c rest).map (Piece.down d) := by
  rcases pieceRead c rest with ⟨u, hu⟩ | ⟨-, -, -, -, hfault⟩
  · rw [hu.scan, hu.scan, u.place_down]
    rfl
  · rw [hfault, hfault]
    rfl

-- ==== whole scans

/-- Scanning `d` lines further down gives the same tokens, `d` lines
down. -/
theorem scanFrom_down (skip : Nat) (p : Pos) (cs : List Char) :
    scanFrom skip (p.down d) cs = (scanFrom skip p cs).map (Scanned.down d) := by
  induction cs generalizing skip p with
  | nil =>
    rw [scanFrom, scanFrom]
    rfl
  | cons c rest ih =>
    cases skip with
    | succ skip =>
      rw [scanFrom, scanFrom]
      exact ih skip p
    | zero =>
      rw [scanFrom, scanFrom, scanPiece_down]
      cases scanPiece p c rest with
      | error fault => rfl
      | ok piece =>
        show (scanFrom (piece.width - 1) (piece.next.down d) rest >>= _) = _
        rw [ih]
        cases hbehind : scanFrom (piece.width - 1) piece.next rest with
        | error fault => simp only [bind, Except.bind, Except.map, hbehind]
        | ok behind =>
          simp only [bind, Except.bind, Except.map, hbehind, pure, Except.pure, Piece.down,
            Scanned.down, List.map_append]

end SketchCompiler
