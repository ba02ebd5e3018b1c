import ParepMpi.Framing.Messages

/-!
# What is decoded is what was encoded

Each reader takes what its peer wrote, and leaves the rest for the next one, exactly if no piece ends inside one of
the variables that it reads.
-/

namespace ParepMpi

open List Option Wire

namespace Framing

open Bytewise Reads

variable (old : Nat → Nat) {w v n : Nat} {xs s : List Nat} {cs : Pieces} {m : Message} {ms : List Message}
  {payload : Nat → Pieces → Option (Payload × Pieces)}

theorem length_encodeInts (xs : List Nat) : (encodeInts xs).length = 4 * xs.length := by
  induction xs with
  | nil => rfl
  | cons x xs ih =>
    exact congrArg (· + 4) ih

theorem meets_field (hw : 1 < w) (hv : v < 256 ^ w) : Meets (readField old w) v (encode w v) (Whole w) := by
  intro cs s hne hs
  have hlen : (field w).total ≤ cs.flatten.length := by
    rw [hs, length_append, length_encode]
    exact Nat.le_add_right _ _
  refine ⟨fun hwhole => ?_, fun hsplit => ?_⟩
  · have htake : cs.flatten.take w = encode w v := by
      rw [hs]
      exact take_left' (length_encode w v)
    have hval : ofBytes (put old 0 (encode w v)) w = v := by
      have h := ofBytes_put old (encode w v) []
      rw [append_nil, length_encode, decode_encode hv] at h
      exact h
    rw [readField, Loop.fill_whole (decide_eq_true (Nat.le_refl w)) hne hlen hwhole, bind_some, length_encode]
    show some (ofBytes (put old 0 (cs.flatten.take w)) w, skip w cs) = _
    rw [htake, hval]
  · have hgo : ∀ b < (field w).total, (field w).stop b = false := fun b hb => decide_eq_false (Nat.not_le_of_lt hb)
    rw [readField, Loop.fill_split hw hgo hne hlen hsplit, bind_none]

theorem words_take (hxs : Ints xs) (hs : cs.flatten = encodeInts xs ++ s) :
    words 4 xs.length (put old 0 (cs.flatten.take (4 * xs.length))) = xs := by
  have htake : cs.flatten.take (4 * xs.length) = encodeInts xs := by
    rw [hs]
    exact take_left' (length_encodeInts xs)
  rw [htake]
  exact words_put hxs.2

theorem le_length_flatten (hs : cs.flatten = encodeInts xs ++ s) : 4 * xs.length ≤ cs.flatten.length := by
  rw [hs, length_append, length_encodeInts]
  exact Nat.le_add_right _ _

theorem meets_array (hxs : Ints xs) :
    Meets (readInts old (array xs.length) xs.length) xs (encodeInts xs) fun _ => True := by
  intro cs s hne hs
  refine ⟨fun _ => ?_, absurd trivial⟩
  have hgo : ∀ b ∈ cuts cs, b < 4 * xs.length → (array xs.length).stop b = false :=
    fun b _ hb => decide_eq_false (Nat.not_le_of_lt hb)
  rw [readInts, Loop.fill_bytes rfl (decide_eq_true (Nat.le_refl _)) hne (le_length_flatten hs) hgo, bind_some,
    length_encodeInts]
  exact congrArg (fun ys => some (ys, skip (4 * xs.length) cs)) (words_take old hxs hs)

theorem meets_table (hxs : Ints xs) :
    Meets (readInts old (table xs.length) xs.length) xs (encodeInts xs) (Whole (4 * xs.length)) := by
  intro cs s hne hs
  refine ⟨fun hwhole => ?_, fun hsplit => ?_⟩
  · rw [readInts, Loop.fill_whole (decide_eq_true (Nat.le_refl _)) hne (le_length_flatten hs) hwhole,
      bind_some, length_encodeInts]
    exact congrArg (fun ys => some (ys, skip (4 * xs.length) cs)) (words_take old hxs hs)
  · have hgo : ∀ b < (table xs.length).total, (table xs.length).stop b = false :=
      fun b hb => decide_eq_false (Nat.not_le_of_lt hb)
    have hstride : 1 < (table xs.length).stride := by
      show 1 < 4
      decide
    rw [readInts, Loop.fill_split hstride hgo hne (le_length_flatten hs) hsplit, bind_none]

theorem length_lt (hxs : Ints xs) : xs.length < 256 ^ 4 := by
  have h := hxs.1
  omega

theorem meets_failedRanks (hxs : Ints xs) :
    Meets (readFailedRanks old) (.failedRanks xs) (Payload.failedRanks xs).encode (Payload.failedRanks xs).Unsplit := by
  have hranks := (meets_array old hxs).map Payload.failedRanks
  have hall := (meets_field old (by decide) (length_lt hxs)).bind
    (k := fun n cs => (readInts old (array n) n cs).bind fun q => some (Payload.failedRanks q.1, q.2)) hranks
  exact hall.congr fun cs _ => and_iff_left trivial

theorem meets_prediction {rank timestamp : Nat} (hr : rank < 256 ^ 4) (ht : timestamp < 256 ^ 8) :
    Meets (readPrediction old) (.prediction rank timestamp) (Payload.prediction rank timestamp).encode
      (Payload.prediction rank timestamp).Unsplit := by
  have htime := (meets_field old (by decide) ht).map (Payload.prediction rank)
  have hall := (meets_field old (by decide) hr).bind
    (k := fun rank cs => (readField old 8 cs).bind fun q => some (Payload.prediction rank q.1, q.2)) htime
  refine hall.congr fun cs _ => ?_
  rw [length_encode, Payload.Unsplit]

theorem meets_nodePrediction {timestamp : Nat} (hxs : Ints xs) (ht : timestamp < 256 ^ 8) :
    Meets (readNodePrediction old) (.nodePrediction xs timestamp) (Payload.nodePrediction xs timestamp).encode
      (Payload.nodePrediction xs timestamp).Unsplit := by
  have htime := (meets_field old (by decide) ht).map (Payload.nodePrediction xs)
  have hranks := (meets_array old hxs).bind
    (k := fun ranks cs => (readField old 8 cs).bind fun r => some (Payload.nodePrediction ranks r.1, r.2)) htime
  have hall := (meets_field old (by decide) (length_lt hxs)).bind
    (k := fun n cs => (readInts old (array n) n cs).bind fun q =>
      (readField old 8 q.2).bind fun r => some (Payload.nodePrediction q.1 r.1, r.2)) hranks
  refine hall.congr fun cs hne => ?_
  rw [length_encode, length_encodeInts, skip_skip hne, true_and, Payload.Unsplit]

theorem meets_failReady (hv : v < 256 ^ 4) :
    Meets (readFailReady old) (.failReady v) (Payload.failReady v).encode (Payload.failReady v).Unsplit :=
  (meets_field old (by decide) hv).map Payload.failReady

theorem meets_noPayload : Meets (fun cs => some (Payload.none, cs)) .none Payload.none.encode Payload.none.Unsplit :=
  Meets.pure Payload.none

theorem meets_daemonPayload (h : m.WellFormed false) :
    Meets (daemonPayload old m.cmd) m.payload m.payload.encode m.payload.Unsplit := by
  obtain ⟨cmd, p⟩ := m
  obtain ⟨-, hof, hfits⟩ := h
  unfold daemonPayload
  cases p with
  | none =>
    obtain ⟨hf, hp, hn, -⟩ := hof
    simp only [if_neg hf, if_neg hp, if_neg hn]
    exact meets_noPayload
  | failedRanks ranks =>
    obtain rfl : cmd = CMD_INFORM_PROC_FAILED := hof
    exact meets_failedRanks old hfits
  | prediction rank timestamp =>
    obtain rfl : cmd = CMD_INFORM_PREDICT := hof
    exact meets_prediction old hfits.1 hfits.2
  | nodePrediction ranks timestamp =>
    obtain rfl : cmd = CMD_INFORM_PREDICT_NODE := hof
    exact meets_nodePrediction old hfits.1 hfits.2
  | failReady v => exact absurd hof.1 Bool.false_ne_true

theorem meets_serverPayload (h : m.WellFormed true) :
    Meets (serverPayload old m.cmd) m.payload m.payload.encode m.payload.Unsplit := by
  obtain ⟨cmd, p⟩ := m
  obtain ⟨-, hof, hfits⟩ := h
  unfold serverPayload
  cases p with
  | none =>
    obtain ⟨hf, hp, hn, hb⟩ := hof
    have hb' : ¬ cmd = CMD_BARRIER := fun h => hb ⟨rfl, h⟩
    simp only [if_neg hf, if_neg hp, if_neg hn, if_neg hb']
    exact meets_noPayload
  | failedRanks ranks =>
    obtain rfl : cmd = CMD_INFORM_PROC_FAILED := hof
    exact meets_failedRanks old hfits
  | prediction rank timestamp =>
    obtain rfl : cmd = CMD_INFORM_PREDICT := hof
    exact meets_prediction old hfits.1 hfits.2
  | nodePrediction ranks timestamp =>
    obtain rfl : cmd = CMD_INFORM_PREDICT_NODE := hof
    exact meets_nodePrediction old hfits.1 hfits.2
  | failReady v =>
    obtain rfl : cmd = CMD_BARRIER := hof.2
    exact meets_failReady old hfits

theorem meets_barrierPayload (h : m.WellFormed true) :
    Meets (barrierPayload old m.cmd) m.payload m.payload.encode fun cs => m.payload.Unsplit cs ∧ m.cmd = CMD_BARRIER := by
  by_cases hcmd : m.cmd = CMD_BARRIER
  · have hsame : barrierPayload old m.cmd = serverPayload old m.cmd := by
      rw [hcmd]
      rfl
    rw [hsame]
    exact (meets_serverPayload old h).congr fun cs _ => (and_iff_left hcmd).symm
  · intro cs s _ _
    exact ⟨fun h => absurd h.2 hcmd, fun _ => if_neg hcmd⟩

theorem meets_checkPayload (h : m.WellFormed false) :
    Meets (checkPayload old m.cmd) m.payload m.payload.encode fun cs => m.payload.Unsplit cs ∧ m.Checked := by
  by_cases hcheck : m.Checked
  · have hsame : checkPayload old m.cmd = daemonPayload old m.cmd := by
      funext cs
      obtain hcmd | hcmd := hcheck
      · rw [hcmd]
        rfl
      · rw [hcmd]
        rfl
    rw [hsame]
    exact (meets_daemonPayload old h).congr fun cs _ => (and_iff_left hcheck).symm
  · have hspin : (m.cmd ≠ CMD_INFORM_PROC_FAILED ∧ m.cmd ≠ CMD_INFORM_PREDICT) ∨ m.cmd = CMD_INFORM_PREDICT_NODE :=
      .inl (not_or.mp hcheck)
    intro cs s _ _
    exact ⟨fun h => absurd h.2 hcheck, fun _ => if_pos hspin⟩

variable {P : Pieces → Prop}

theorem meets_message (hcmd : m.cmd < 256 ^ 4) (h : Meets (payload m.cmd) m.payload m.payload.encode P) :
    Meets (readMessage old payload) m m.encode fun cs => Whole 4 cs ∧ P (skip 4 cs) := by
  have hpay := h.map fun p => (⟨m.cmd, p⟩ : Message)
  have hmsg := (meets_field old (by decide) hcmd).bind
    (k := fun cmd cs => (payload cmd cs).bind fun q => some ((⟨cmd, q.1⟩ : Message), q.2)) hpay
  exact hmsg.congr fun cs _ => by rw [length_encode]

theorem meets_messages {Q : Message → Prop}
    (h : ∀ m ∈ ms, Meets (readMessage old payload) m m.encode fun cs => m.Unsplit cs ∧ Q m) :
    Meets (readMessages old payload ms.length) ms (ms.flatMap Message.encode)
      fun cs => Unsplit ms cs ∧ ∀ m ∈ ms, Q m := by
  induction ms with
  | nil => exact (Meets.pure []).congr fun cs _ => by simp [Unsplit]
  | cons m ms ih =>
    have hrest := (ih fun k hk => h k (mem_cons_of_mem m hk)).map (cons m)
    have hall := (h m mem_cons_self).bind
      (k := fun m cs => (readMessages old payload ms.length cs).bind fun q => some (m :: q.1, q.2)) hrest
    refine hall.congr fun cs _ => ?_
    rw [Unsplit, forall_mem_cons]
    constructor
    · intro hc
      exact ⟨⟨hc.1.1, hc.2.1⟩, hc.1.2, hc.2.2⟩
    · intro hc
      exact ⟨⟨hc.1.1, hc.2.1⟩, hc.1.2, hc.2.2⟩

theorem meets_serverMessage (h : m.WellFormed true) (awaits : Bool) :
    Meets (readMessage old (if awaits then barrierPayload old else serverPayload old)) m m.encode
      fun cs => m.Unsplit cs ∧ (awaits = true → m.cmd = CMD_BARRIER) := by
  cases awaits with
  | true =>
    refine (meets_message old h.1 (meets_barrierPayload old h)).congr fun cs _ => ?_
    rw [← and_assoc, forall_prop_of_true rfl]
    rfl
  | false =>
    refine (meets_message old h.1 (meets_serverPayload old h)).congr fun cs _ => ?_
    exact (and_iff_left fun hfalse => absurd hfalse Bool.false_ne_true).symm

theorem meets_pollingServer (performing : Nat → Bool) (awaits : Bool) (h : ∀ m ∈ ms, m.WellFormed true) :
    Meets (pollingServer old performing awaits ms.length) ms (ms.flatMap Message.encode)
      fun cs => Unsplit ms cs ∧ Awaited performing awaits ms := by
  induction ms generalizing awaits with
  | nil => exact (Meets.pure []).congr fun cs _ => by simp [Unsplit, Awaited]
  | cons m ms ih =>
    have hrest := (ih (!awaits && performing ms.length && m.announces) fun k hk => h k (mem_cons_of_mem m hk)).map (cons m)
    have hall := (meets_serverMessage old (h m mem_cons_self) awaits).bind
      (k := fun m cs => (pollingServer old performing (!awaits && performing ms.length && m.announces) ms.length cs).bind
        fun q => some (m :: q.1, q.2)) hrest
    exact hall.congr fun cs _ => and_and_and_comm

theorem meets_mainTables {tables : List (List Nat × List Nat)} (h : ∀ t ∈ tables, TableFits t) :
    Meets (mainTables old (tables.map fun t => t.1.length)) tables (encodeTables tables) (TablesUnsplit tables) := by
  induction tables with
  | nil => exact Meets.pure []
  | cons t ts ih =>
    obtain ⟨pids, ranks⟩ := t
    obtain ⟨hpids, hranks, hlen⟩ := h (pids, ranks) mem_cons_self
    have hrest := (ih fun u hu => h u (mem_cons_of_mem _ hu)).map (cons (pids, ranks))
    have hsecond := (meets_table old hranks).bind
      (k := fun ranks cs => (mainTables old (ts.map fun t => t.1.length) cs).bind fun rest =>
        some ((pids, ranks) :: rest.1, rest.2)) hrest
    have hall := (meets_table old hpids).bind
      (k := fun pids cs => (readInts old (table ranks.length) ranks.length cs).bind fun ranks =>
        (mainTables old (ts.map fun t => t.1.length) ranks.2).bind fun rest =>
          some ((pids, ranks.1) :: rest.1, rest.2)) hsecond
    rw [← append_assoc] at hall
    rw [map_cons, encodeTables, flatMap_cons]
    have hread : mainTables old (pids.length :: ts.map fun t => t.1.length)
        = fun cs => (readInts old (table pids.length) pids.length cs).bind fun p =>
            (readInts old (table ranks.length) ranks.length p.2).bind fun ranks =>
              (mainTables old (ts.map fun t => t.1.length) ranks.2).bind fun rest =>
                some ((p.1, ranks.1) :: rest.1, rest.2) := by
      funext cs
      rw [mainTables, hlen]
    rw [hread]
    refine hall.congr fun cs hne => ?_
    rw [length_encodeInts, length_encodeInts, skip_skip hne, TablesUnsplit]

theorem meets_startup {α : Type} {r : Pieces → Option (α × Pieces)} {x : α} {bs : List Nat} (h : Meets r x bs P) :
    Meets (fun cs => (readInts old (array 1) 1 cs).bind fun lpinit => if lpinit.1 = [1] then r lpinit.2 else none) x
      (encodeInts [1] ++ bs) fun cs => P (skip 4 cs) := by
  have hone : Ints [1] := ⟨by decide, by decide⟩
  have hall := (meets_array old hone).bind (k := fun xs cs => if xs = [1] then r cs else none) h
  refine hall.congr fun cs _ => ?_
  rw [true_and]
  rfl

theorem leaderTable_fill (hxs : Ints xs) (hne : NonEmpty cs) (hs : cs.flatten = encodeInts xs ++ s) :
    (HalfWhole (4 * xs.length) cs
        → readInts old (leaderTable xs.length) xs.length cs = some (xs, skip (4 * xs.length) cs))
      ∧ (¬ HalfWhole (4 * xs.length) cs → ∃ r, readInts old (leaderTable xs.length) xs.length cs = some r
        ∧ cs.flatten.length < r.2.flatten.length + 4 * xs.length) := by
  refine ⟨fun hhalf => ?_, fun hcut => ?_⟩
  · have hend : (leaderTable xs.length).stop (4 * xs.length) = true :=
      decide_eq_true (Nat.sub_le (4 * xs.length) (4 * xs.length))
    have hgo : ∀ b ∈ cuts cs, b < 4 * xs.length → (leaderTable xs.length).stop b = false := by
      intro b hb hlt
      have hlow := hhalf b hb hlt
      apply decide_eq_false
      omega
    rw [readInts, Loop.fill_bytes rfl hend hne (le_length_flatten hs) hgo, bind_some]
    exact congrArg (fun ys => some (ys, skip (4 * xs.length) cs)) (words_take old hxs hs)
  · have hearly : ∃ b ∈ cuts cs, b < 4 * xs.length ∧ (leaderTable xs.length).stop b = true := by
      apply Classical.byContradiction
      intro hnone
      apply hcut
      intro b hb hlt
      apply Nat.lt_of_not_le
      intro hhigh
      exact hnone ⟨b, hb, hlt, decide_eq_true (by omega)⟩
    have hfill : ∃ r, (leaderTable xs.length).fill old cs = some r ∧ NonEmpty r.2
        ∧ cs.flatten.length < r.2.flatten.length + 4 * xs.length :=
      Loop.fill_early rfl hne (le_length_flatten hs) hearly
    obtain ⟨r, hr, -, hlong⟩ := hfill
    refine ⟨(words 4 xs.length r.1, r.2), ?_, hlong⟩
    rw [readInts, hr, bind_some]

theorem length_readInts {l : Loop} {r : List Nat × Pieces} (h : readInts old l n cs = some r) :
    cs.flatten.length ≤ r.2.flatten.length + l.total := by
  obtain ⟨p, hp, hr⟩ := bind_eq_some_iff.mp h
  obtain rfl := some.inj hr
  exact Loop.length_fill hp

theorem leaderTables_iff {pids ranks : List Nat} (h : TableFits (pids, ranks)) (hne : NonEmpty cs)
    (hs : cs.flatten = encodeInts pids ++ encodeInts ranks ++ s) :
    leaderTables old pids.length cs = some ((pids, ranks), skip (4 * pids.length + 4 * ranks.length) cs)
      ↔ HalfWhole (4 * pids.length) cs ∧ HalfWhole (4 * ranks.length) (skip (4 * pids.length) cs) := by
  obtain ⟨hpids, hranks, hlen⟩ := h
  dsimp only at hpids hranks hlen
  rw [append_assoc] at hs
  have hs₂ : (skip (4 * pids.length) cs).flatten = encodeInts ranks ++ s := by
    rw [← length_encodeInts]
    exact flatten_skip_append hs
  have htotal : cs.flatten.length = 4 * pids.length + 4 * ranks.length + s.length := by
    rw [hs, length_append, length_append, length_encodeInts, length_encodeInts, add_assoc]
  obtain ⟨hgood₁, hbad₁⟩ := leaderTable_fill old hpids hne hs
  obtain ⟨hgood₂, hbad₂⟩ := leaderTable_fill old hranks hne.skip hs₂
  rw [← hlen] at hgood₂ hbad₂ htotal ⊢
  -- However the second table is read, too many bytes are left once the first loop has stopped early.
  have hlost : ∀ {pids' : List Nat} {cs' : Pieces}, readInts old (leaderTable pids.length) pids.length cs = some (pids', cs')
      → leaderTables old pids.length cs = some ((pids, ranks), skip (4 * pids.length + 4 * pids.length) cs)
      → cs'.flatten.length ≤ s.length + 4 * pids.length := by
    intro pids' cs' hfirst hall
    rw [leaderTables, hfirst, bind_some] at hall
    obtain ⟨r, hr, hout⟩ := bind_eq_some_iff.mp hall
    have hrest : r.2 = skip (4 * pids.length + 4 * pids.length) cs := congrArg Prod.snd (some.inj hout)
    have hle : cs'.flatten.length ≤ r.2.flatten.length + 4 * pids.length := length_readInts old hr
    rw [hrest, flatten_skip, length_drop] at hle
    omega
  refine ⟨fun hall => ?_, fun hhalf => ?_⟩
  · have hfirst : HalfWhole (4 * pids.length) cs := by
      apply Classical.byContradiction
      intro hcut
      obtain ⟨r, hr, hlong⟩ := hbad₁ hcut
      have hle := hlost hr hall
      omega
    refine ⟨hfirst, ?_⟩
    apply Classical.byContradiction
    intro hcut
    obtain ⟨r, hr, hlong⟩ := hbad₂ hcut
    rw [leaderTables, hgood₁ hfirst, bind_some, hr, bind_some] at hall
    have hrest : r.2 = skip (4 * pids.length + 4 * pids.length) cs := congrArg Prod.snd (some.inj hall)
    rw [hrest, flatten_skip, flatten_skip, length_drop, length_drop] at hlong
    omega
  · rw [leaderTables, hgood₁ hhalf.1, bind_some, hgood₂ hhalf.2, bind_some, skip_skip hne]

/-- A notice whose ranks arrive in two pieces, and a request after it. -/
def noticePieces : Pieces := [[10, 0, 0, 0], [1, 0, 0, 0, 3, 0], [0, 0, 20, 0, 0, 0]]

end Framing

end ParepMpi
