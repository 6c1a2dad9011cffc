import P2Player.Stream.Range

/-!
# Only complete pieces are read

`setTorrentReadPiece` asks for a piece whose download must be complete.  Both loops reach it in
several ways: the torrent is finished, the first missing piece is far ahead or beyond the torrent, or
it is not the piece to be sent.

* `ReadsComplete`: the reads of a run belong to its iterations, and are of complete pieces;
* `KnowsDone.allows`: an iteration reads the piece that is to be sent, when it is complete;
* `reads_complete`: every piece that is asked for is complete at that moment.
-/

namespace P2Player.Stream

open Java Program

/-- The reads of a run with the calls `calls` belong to its iterations, and those of an iteration that
begins at a piece of the torrent are allowed. -/
structure ReadsComplete (D : Download) (R : Request) (body : Tick → Prog Unit)
    (iterations : List (Tick × State)) (calls : List Call) : Prop where
  made : ∀ c ∈ calls, c.Reads → ∃ x ∈ iterations, c ∈ callsIn (body x.1) x.2
  complete : ∀ k t s, iterations[k]? = some (t, s) → InTorrent R.torrent s → NoOverflow R t s →
    ∀ c ∈ callsIn (body t) s, D.Allows k s.streamPiece c

section

variable {R : Request} {D : Download} {t : Tick} {k : ℕ} {s₀ : State}

/-! ### Iterations and runs -/

section

variable {buffers : ℤ → State → Prop} [∀ n s, Decidable (buffers n s)] {wait : Prog Unit}

/-- **Step lemma.** An iteration at a piece of the torrent reads this piece, when it is complete. -/
theorem KnowsDone.allows (hwait : Waits wait) (hskips : Skips R buffers)
    (hs : KnowsDone D R.torrent k s₀) (hD : D.Answers R.torrent k t)
    (hin : InTorrent R.torrent s₀) (hno : NoOverflow R t s₀) {c : Call}
    (hc : c ∈ callsIn (commonIteration R t buffers wait) s₀) : D.Allows k s₀.streamPiece c := by
  have hother : ∀ c : Call, ¬ c.Reads → D.Allows k s₀.streamPiece c := by
    intro c hc
    cases c with
    | setTorrentReadPiece p => exact absurd trivial hc
    | readTorrentPiece p => exact absurd trivial hc
    | _ => trivial
  have hread : ∀ n s₁, Opened R t s₀ n s₁ →
      (buffers n s₁ → s₁.streamPiece ≠ s₁.incompleteIdx) →
        D.Allows k s₀.streamPiece (.setTorrentReadPiece s₀.streamPiece) ∧
          D.Allows k s₀.streamPiece (.readTorrentPiece s₀.streamPiece) := by
    intro n s₁ hopen hpast
    have hcomplete := hs.mem_complete_of_past hskips hD hin hno hopen hpast
    refine ⟨⟨rfl, D.grows ?_ hcomplete⟩, ⟨rfl, D.grows ?_ hcomplete⟩⟩
    · simp only [Moment.time]; omega
    · simp only [Moment.time]; omega
  have hrun : Triple (fun s => s = s₀) (commonIteration R t buffers wait)
      (fun _ s => Moved (fun _ => ()) (D.Allows k s₀.streamPiece) s₀ s)
      fun e s => Moved (fun _ => ()) (D.Allows k s₀.streamPiece) s₀ s ∧
        (e = .again → NextState t s₀ s) :=
    (triple_commonIteration hwait hother hread).conseq (fun _ => id) (fun _ _ h => h.1) fun _ _ => id
  exact mem_callsIn hrun (fun _ _ h => h.1) hc

end

section

variable {buffers : ℤ → State → Prop} [∀ n s, Decidable (buffers n s)] {wait : Tick → Prog Unit}
  {prologue : Prog Unit} {ts : List Tick}

/-- **Run lemma.** -/
theorem readsComplete_run (hpro : Moves (Moved State.state fun c => ¬ c.Reads) prologue)
    (hwait : ∀ t, Waits (wait t)) (hskips : Skips R buffers)
    (hD : ∀ k t, ts[k]? = some t → D.Answers R.torrent k t) :
    ReadsComplete D R (fun t => commonIteration R t buffers (wait t))
      (runIterations R prologue (fun t => commonIteration R t buffers (wait t)) ts)
      (runStream R prologue (fun t => commonIteration R t buffers (wait t)) ts).calls where
  made c hc hreads := by
    have hadds : AddsCalls prologue :=
      Moves.mono hpro fun _ _ h => h.mono (fun _ => rfl) fun _ _ => trivial
    have hbody : ∀ t, AddsCalls (commonIteration R t buffers (wait t)) := fun t s =>
      (triple_commonIteration (hwait t) (fun _ _ => trivial) fun _ _ _ _ => ⟨trivial, trivial⟩).conseq
        (fun _ => id) (fun _ _ h => h.1) (fun _ _ h => h.1) s rfl
    refine (mem_calls_runStream hadds hbody hc).resolve_left fun h => ?_
    have hnone : Triple (fun s => s = initState R) prologue
        (fun _ s => Moved (fun _ => ()) (fun c => ¬ c.Reads) (initState R) s)
        fun _ s => Moved (fun _ => ()) (fun c => ¬ c.Reads) (initState R) s := by
      rintro s rfl
      exact (hpro.mono fun _ _ h => h.mono (g := fun _ => ()) (fun _ => rfl) fun _ => id) _
    exact mem_callsIn hnone (fun _ _ => id) h hreads
  complete k t s hk hin hno c hc := by
    have hknows : KnowsDone D R.torrent k s := by
      refine (runIterations_keeps (knowsDone_prologue hpro) (fun k t s hk hs _ => ?_) hk).1
      have hDk := hD k t (input_of_runIterations hk)
      refine (triple_commonIteration (P := fun _ => True) (hwait t) (fun _ _ => trivial)
        fun _ _ _ _ => ⟨trivial, trivial⟩).conseq (fun _ => id)
        (fun _ s' h => (hs.after hDk h.2).succ) fun e s' h => ?_
      cases e with
      | again => exact (hs.after hDk (h.2 rfl)).succ
      | leave => trivial
      | threw => trivial
    exact hknows.allows (hwait t) hskips (hD k t (input_of_runIterations hk)) hin hno hc

end

/-! ### Where the iterations begin -/

section

variable {c : Creation} {t₀ t₁ : Tick} {ts : List Tick}

/-- **Only complete pieces are read**: in every run of either streamer and for every evolution of the
download, `setTorrentReadPiece` and `readTorrentPiece` are called for a piece that is complete at
that moment, as long as the stream is at a piece of the torrent and `streamPiece + PIECE_BUFFER_SIZE` does
not overflow.  It is at one when each read that is trusted gives no data or the whole piece. -/
theorem reads_complete (R : Request) (H : Helper) (D : Download)
    (hD : ∀ k t, ts[k]? = some t → D.Answers R.torrent k t) :
    (ReadsComplete D R (TorrentStreamerImpl.iteration R) (TorrentStreamerImpl.iterations R t₁ ts)
        (TorrentStreamerImpl.stream R t₁ ts).calls ∧
      ReadsComplete D R (HyperStreamer.iteration R H) (HyperStreamer.iterations R H t₀ t₁ ts)
        (HyperStreamer.stream R H t₀ t₁ ts).calls) ∧
    (((∀ k t s, (TorrentStreamerImpl.iterations R t₁ ts)[k]? = some (t, s) →
        ReadOk R.torrent (trusted R D k t s) t) →
      ∀ x ∈ TorrentStreamerImpl.iterations R t₁ ts, InTorrent R.torrent x.2) ∧
    ((∀ k t s, (HyperStreamer.iterations R H t₀ t₁ ts)[k]? = some (t, s) →
        ReadOk R.torrent (trusted R D k t s) t) →
      H = .create R.torrent c → (∀ t ∈ t₀ :: ts, DataOk R.torrent t) →
        ∀ x ∈ HyperStreamer.iterations R H t₀ t₁ ts, InTorrent R.torrent x.2)) := by
  have hgiven : ∀ its : List (Tick × State),
      (∀ (k : ℕ) t s, its[k]? = some (t, s) → ts[k]? = some t) →
      (∀ k t s, its[k]? = some (t, s) → ReadOk R.torrent (trusted R D k t s) t) →
      Given R D its := fun its hinput hr =>
    ⟨fun k t s hk => hD k t (hinput k t s hk), fun k t s hk hcomplete =>
      (hr k t s hk).mono (Set.singleton_subset_iff.2 hcomplete)⟩
  refine ⟨⟨?_, ?_⟩, fun hr => ?_, fun hr hH hd => ?_⟩
  · unfold TorrentStreamerImpl.iterations TorrentStreamerImpl.stream
    rw [funext (TorrentStreamerImpl.iteration_eq R)]
    exact readsComplete_run TorrentStreamerImpl.moves_prologue
      (fun _ => TorrentStreamerImpl.waits) TorrentStreamerImpl.skips hD
  · unfold HyperStreamer.iterations HyperStreamer.stream
    rw [funext (HyperStreamer.iteration_eq R H)]
    exact readsComplete_run HyperStreamer.moves_prologue (fun _ => HyperStreamer.waits)
      HyperStreamer.skips hD
  · exact inTorrent_torrentStreamerImpl (hgiven _ (fun _ _ _ => input_of_runIterations) hr)
  · subst hH
    exact inTorrent_hyperStreamer hd (hgiven _ (fun _ _ _ => input_of_runIterations) hr)

end

end

/-! ### A growing download -/

/-- The item of three pieces. -/
def wholeItem : Request := ⟨threePieces, 0, 9, by decide⟩

/-- The pieces 0 and 1 are read, the first one while piece 2 is missing. -/
theorem reads_complete_growing :
    (TorrentStreamerImpl.iterations wholeItem (tickWith 2) [tickWith 2, tickWith 3]).length = 2 ∧
      ReadsComplete threeGrowing wholeItem (TorrentStreamerImpl.iteration wholeItem)
        (TorrentStreamerImpl.iterations wholeItem (tickWith 2) [tickWith 2, tickWith 3])
        (TorrentStreamerImpl.stream wholeItem (tickWith 2) [tickWith 2, tickWith 3]).calls := by
  have hD : ∀ k t, [tickWith 2, tickWith 3][k]? = some t → threeGrowing.Answers threePieces k t := by
    intro k t hk
    match k, hk with
    | 0, rfl => exact answers_tickWith (by decide)
    | 1, rfl => exact answers_tickWith (by decide)
  exact ⟨by decide +kernel,
    (@reads_complete ⟨true, true, true⟩ (tickWith 2) (tickWith 2) _ wholeItem {} threeGrowing hD).1.1⟩

end P2Player.Stream
