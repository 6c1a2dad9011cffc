import P2Player.Stream.Iteration

/-!
# The download behind a stream

The pieces of the torrent are completed while they are streamed, and the native layer tells of it.

* `Download`: the pieces that are complete at the moments of a run, and the native answers about them;
* `KnowsDone`: what the streamer remembers of them from one iteration to the next;
* `Skips`: the ways round the block for missing pieces;
* `KnowsDone.mem_complete_of_past`: what lets an iteration go on to read has found its piece complete.

An overflow of `streamPiece + PIECE_BUFFER_SIZE` is one more way round the block.
-/

namespace P2Player.Stream

open Java Program

/-! ### The download -/

/-- The native calls of an iteration that are about complete pieces, in their order. -/
inductive Moment
  | getTorrentState
  | getFirstPieceIncomplete
  | setTorrentReadPiece
  | readTorrentPiece

/-- The moments of all iterations, in their order. -/
def Moment.time (k : ℕ) : Moment → ℕ
  | .getTorrentState => 4 * k
  | .getFirstPieceIncomplete => 4 * k + 1
  | .setTorrentReadPiece => 4 * k + 2
  | .readTorrentPiece => 4 * k + 3

/-- The pieces that are complete at each moment; they stay complete. -/
structure Download where
  complete : ℕ → Set ℤ
  grows : ∀ ⦃m n : ℕ⦄, m ≤ n → complete m ⊆ complete n

namespace Download

variable (D : Download) (T : Torrent)

/-- All pieces are complete. -/
def AllComplete (time : ℕ) : Prop := ∀ p : ℤ, 0 ≤ p → p < T.pieceNum → p ∈ D.complete time

/-- The answers in the iteration `k`: the states 4 and 5 mean that all pieces are complete, and the
first incomplete piece is the least one missing or the number of pieces. -/
structure Answers (k : ℕ) (t : Tick) : Prop where
  state : t.getTorrentState = some 4 ∨ t.getTorrentState = some 5 →
    D.AllComplete T (Moment.getTorrentState.time k)
  first : ∀ p i : ℤ, 0 ≤ p → p ≤ T.pieceNum → t.getFirstPieceIncomplete p = some i →
    IsLeast {j : ℤ | p ≤ j ∧ (j = T.pieceNum ∨
      j < T.pieceNum ∧ j ∉ D.complete (Moment.getFirstPieceIncomplete.time k))} i

/-- The piece that a call asks to read is the one to be sent, and it is complete at that moment of the
iteration `k`. -/
def Allows (k : ℕ) (streamPiece : ℤ) : Call → Prop
  | .setTorrentReadPiece p => p = streamPiece ∧ p ∈ D.complete (Moment.setTorrentReadPiece.time k)
  | .readTorrentPiece p => p = streamPiece ∧ p ∈ D.complete (Moment.readTorrentPiece.time k)
  | _ => True

end Download

/-- An iteration begins at a piece of the torrent. -/
def InTorrent (T : Torrent) (s : State) : Prop := 0 ≤ s.streamPiece ∧ s.streamPiece < T.pieceNum

/-- `streamPiece + PIECE_BUFFER_SIZE` does not overflow. -/
def NoOverflow (R : Request) (t : Tick) (s : State) : Prop :=
  ∀ n, bufferSize R t = some n → s.streamPiece + n ≤ maxInt

section

variable {R : Request} {D : Download} {t : Tick} {k : ℕ} {s₀ : State}

/-- What lies before the first incomplete piece is complete. -/
theorem Download.mem_complete_of_lt {T : Torrent} (hD : D.Answers T k t) {p i : ℤ} (h0 : 0 ≤ p)
    (hp : p < T.pieceNum) (hi : t.getFirstPieceIncomplete p = some i) (hlt : p < i) :
    p ∈ D.complete (Moment.getFirstPieceIncomplete.time k) := by
  by_contra hmiss
  exact absurd ((hD.first p i h0 hp.le hi).2 ⟨le_rfl, Or.inr ⟨hp, hmiss⟩⟩) (not_le.2 hlt)

/-- The state after an iteration tells of the download what the state before it has told. -/
def KnowsDone (D : Download) (T : Torrent) (k : ℕ) (s : State) : Prop :=
  s.state = 4 ∨ s.state = 5 → D.AllComplete T (Moment.getTorrentState.time k)

theorem Download.AllComplete.mono {T : Torrent} {m n : ℕ} (h : D.AllComplete T m) (hmn : m ≤ n) :
    D.AllComplete T n :=
  fun p h0 hp => D.grows hmn (h p h0 hp)

theorem KnowsDone.after {T : Torrent} (hs : KnowsDone D T k s₀) (hD : D.Answers T k t) {s : State}
    (h : NextState t s₀ s) : KnowsDone D T k s := by
  intro hdone
  rcases h with h | h
  · rw [h] at hdone
    exact hs hdone
  · apply hD.state
    rcases hdone with hdone | hdone <;> rw [hdone] at h
    · exact Or.inl h
    · exact Or.inr h

theorem KnowsDone.succ {T : Torrent} {s : State} (hs : KnowsDone D T k s) :
    KnowsDone D T (k + 1) s :=
  fun hdone => (hs hdone).mono (by simp only [Moment.time]; omega)

/-- The piece that an iteration goes on to read was complete when the first incomplete piece was asked
for. -/
theorem KnowsDone.mem_complete (hs : KnowsDone D R.torrent k s₀) (hD : D.Answers R.torrent k t)
    (hin : InTorrent R.torrent s₀) {n : ℤ} {s₁ : State} (hopen : Opened R t s₀ n s₁)
    (hcase : (s₁.state = 4 ∨ s₁.state = 5) ∨ s₁.streamPiece < s₁.incompleteIdx) :
    s₀.streamPiece ∈ D.complete (Moment.getFirstPieceIncomplete.time k) := by
  rcases hcase with hdone | hlt
  · refine ((hs.after hD hopen.state) hdone).mono ?_ _ hin.1 hin.2
    simp only [Moment.time]
    omega
  · rw [hopen.streamPiece_eq] at hlt
    exact Download.mem_complete_of_lt hD hin.1 hin.2 hopen.idx hlt

/-- Before the loop the streamer knows of no state. -/
theorem knowsDone_prologue {prologue : Prog Unit}
    (hpro : Moves (Moved State.state fun c => ¬ c.Reads) prologue) :
    Triple (fun s => s = initState R) prologue (fun _ => KnowsDone D R.torrent 0)
      fun _ _ => True := by
  refine Triple.conseq ((Moves.triple hpro (I := fun s => s.state = 0) ?_)) ?_ ?_ fun _ _ _ => trivial
  · rintro s s' h hs
    rw [h.part, hs]
  · rintro s rfl
    rfl
  · rintro _ s hs hdone
    rw [hs] at hdone
    norm_num at hdone

/-! ### The ways round the block -/

/-- What keeps an iteration out of the block for missing pieces. -/
def Skips (R : Request) (buffers : ℤ → State → Prop) : Prop :=
  ∀ n s, ¬ buffers n s → (s.state = 4 ∨ s.state = 5) ∨ R.torrent.pieceNum ≤ s.incompleteIdx ∨
    toInt (s.streamPiece + n) ≤ s.incompleteIdx

theorem TorrentStreamerImpl.skips : Skips R buffers := by
  intro n s h
  unfold buffers at h
  by_cases h4 : s.state = 4
  · exact Or.inl (Or.inl h4)
  by_cases h5 : s.state = 5
  · exact Or.inl (Or.inr h5)
  exact Or.inr (Or.inr (not_lt.1 fun hlt => h ⟨h4, h5, hlt⟩))

theorem HyperStreamer.skips : Skips R (buffers R) := by
  intro n s h
  unfold buffers at h
  by_cases h4 : s.state = 4
  · exact Or.inl (Or.inl h4)
  by_cases h5 : s.state = 5
  · exact Or.inl (Or.inr h5)
  by_cases hidx : s.incompleteIdx < R.torrent.pieceNum
  · exact Or.inr (Or.inr (not_lt.1 fun hlt => h ⟨h4, h5, hidx, hlt⟩))
  · exact Or.inr (Or.inl (not_lt.1 hidx))

/-- The piece that an iteration goes on to read was complete when the first incomplete piece was asked
for, unless the length of its window overflows. -/
theorem KnowsDone.mem_complete_of_past {buffers : ℤ → State → Prop} (hskips : Skips R buffers)
    (hs : KnowsDone D R.torrent k s₀) (hD : D.Answers R.torrent k t) (hin : InTorrent R.torrent s₀)
    (hno : NoOverflow R t s₀) {n : ℤ} {s₁ : State} (hopen : Opened R t s₀ n s₁)
    (hpast : buffers n s₁ → s₁.streamPiece ≠ s₁.incompleteIdx) :
    s₀.streamPiece ∈ D.complete (Moment.getFirstPieceIncomplete.time k) := by
  refine hs.mem_complete hD hin hopen ?_
  have hge := bufferSize_ge hopen.size
  have hmax := hno n hopen.size
  have hpiece := hopen.streamPiece_eq
  have hle := (hD.first _ _ hin.1 hin.2.le hopen.idx).1.1
  unfold maxInt at hmax
  by_cases hbuf : buffers n s₁
  · -- the first incomplete piece is another one
    have hne := hpast hbuf
    exact Or.inr (by omega)
  · refine (hskips n s₁ hbuf).imp_right fun h => ?_
    have hpos := hin.1
    have hlt := hin.2
    rw [hpiece, toInt_of_isInt ⟨by omega, hmax⟩] at h
    omega

end

end P2Player.Stream
