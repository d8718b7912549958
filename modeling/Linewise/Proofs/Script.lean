import Linewise.Machine
import Mathlib.Data.List.DropRight
import Mathlib.Data.List.Forall2

/-!
# Lines of a script

A script is cut at its newlines while it is still a row of bytes, and each piece is decoded on
its own. So a piece that is no text is one fault, and those after it are read as if it were not
there (`Source.pieces_terminated`, `Machine.reads_script`).

On a text this is the same as cutting it at its newline characters, because the byte of a newline
is in the encoding of no other character (`Text.newline_mem_bytes`). Hence no line of a text is a
fault, and lines that are written with a newline after each are read back (`Source.linesOf_text`).
-/

namespace Linewise

/-! ## Pieces -/

section

variable {α : Type}

/-- Pieces with a separator after each, and what follows the last one. -/
def terminated (separator : α) (pieces : List (List α)) (last : List α) : List α :=
  pieces.flatMap (· ++ [separator]) ++ last

theorem terminated_cons (separator : α) (p : List α) (pieces : List (List α)) (last : List α) :
    terminated separator (p :: pieces) last =
      p ++ separator :: terminated separator pieces last := by
  simp [terminated]

/-- Every row consists of pieces without the separator. -/
theorem exists_terminated [DecidableEq α] (separator : α) (row : List α) :
    ∃ pieces last, (∀ p ∈ pieces, separator ∉ p) ∧ separator ∉ last ∧
      row = terminated separator pieces last := by
  induction row with
  | nil => exact ⟨[], [], by simp [terminated]⟩
  | cons a row ih =>
    obtain ⟨pieces, last, hpieces, hlast, rfl⟩ := ih
    by_cases ha : separator = a
    · -- A separator ends a piece with nothing in it.
      refine ⟨[] :: pieces, last, by simpa using hpieces, hlast, ?_⟩
      rw [terminated_cons, ha, List.nil_append]
    · rcases pieces with _ | ⟨p, pieces⟩
      · exact ⟨[], a :: last, nofun, by simp [ha, hlast], rfl⟩
      · rw [List.forall_mem_cons] at hpieces
        refine ⟨(a :: p) :: pieces, last, ?_, hlast, ?_⟩
        · simpa [ha, hpieces.1] using hpieces.2
        · rw [terminated_cons, terminated_cons, List.cons_append]

end

namespace Source

variable {p last : List UInt8} {ps : List (List UInt8)} {b : UInt8}

theorem pieces_cons (b : UInt8) (bytes : List UInt8) :
    pieces (b :: bytes) = addByte b (pieces bytes) :=
  rfl

theorem pieces_append_newline (hp : 10 ∉ p) (rest : List UInt8) :
    pieces (p ++ 10 :: rest) = p :: pieces rest := by
  induction p with
  | nil => rfl
  | cons b p ih =>
    rw [List.mem_cons, not_or] at hp
    rw [List.cons_append, pieces_cons, ih hp.2]
    exact if_neg (Ne.symm hp.1)

theorem pieces_of_not_mem (hp : 10 ∉ p) : pieces p = if p = [] then [] else [p] := by
  induction p with
  | nil => rfl
  | cons b p ih =>
    rw [List.mem_cons, not_or] at hp
    rw [pieces_cons, ih hp.2]
    refine (if_neg (Ne.symm hp.1)).trans ?_
    rcases p with _ | ⟨c, p⟩ <;> rfl

/-- There is a piece before each newline, and one more if something follows the last. -/
theorem pieces_terminated (hps : ∀ p ∈ ps, 10 ∉ p) (hlast : 10 ∉ last) :
    pieces (terminated 10 ps last) = ps ++ if last = [] then [] else [last] := by
  induction ps with
  | nil => exact pieces_of_not_mem hlast
  | cons p ps ih =>
    rw [List.forall_mem_cons] at hps
    rw [terminated_cons, pieces_append_newline hps.1, ih hps.2, List.cons_append]

end Source

/-! ## Texts -/

namespace Text

variable {c : Char} {s t : String}

/-- The encoding of a text. -/
def bytes (s : String) : List UInt8 :=
  s.toUTF8.data.toList

theorem bytes_eq (s : String) : bytes s = s.toList.flatMap String.utf8EncodeChar := by
  rw [bytes, String.toUTF8_eq_toByteArray, ← String.utf8Encode_toList, List.utf8Encode,
    List.toList_data_toByteArray]

theorem bytes_append (s t : String) : bytes (s ++ t) = bytes s ++ bytes t := by
  simp [bytes_eq]

theorem bytes_eq_nil_iff : bytes s = [] ↔ s = "" := by
  rw [bytes_eq, List.flatMap_eq_nil_iff, ← String.toList_eq_nil_iff, List.eq_nil_iff_forall_not_mem]
  simp

/-- The byte of a newline is no part of another character. -/
theorem newline_mem_encodeChar (h : 10 ∈ String.utf8EncodeChar c) : c = '\n' := by
  suffices hval : c.toNat = 10 from Char.toNat_inj.1 hval
  revert h
  fun_cases String.utf8EncodeChar c with
  | case1 v | case2 v | case3 v | case4 v =>
    have hv : v = c.toNat := rfl
    simp only [List.mem_cons, List.not_mem_nil, or_false, ← UInt8.toNat_inj, UInt8.toNat_ofNat',
      UInt8.reduceToNat]
    omega

theorem newline_mem_bytes (h : 10 ∈ bytes s) : '\n' ∈ s.toList := by
  rw [bytes_eq, List.mem_flatMap] at h
  obtain ⟨c, hc, h⟩ := h
  rwa [newline_mem_encodeChar h] at hc

theorem fromUTF8?_eq_some_iff {bs : List UInt8} :
    String.fromUTF8? bs.toByteArray = some s ↔ bytes s = bs := by
  have hbytes : bytes s = bs ↔ s.toByteArray = bs.toByteArray := by
    rw [ByteArray.ext_iff, ← Array.toList_inj, List.toList_data_toByteArray]
    rfl
  rw [hbytes]
  unfold String.fromUTF8?
  split
  · rw [Option.some.injEq, ← String.toByteArray_inj, eq_comm]
    rfl
  · rename_i hvalid
    refine iff_of_false nofun fun heq => hvalid ?_
    rw [← heq]
    exact s.isValidUTF8

/-- Lines with a newline after each, and what follows the last one. -/
def ofLines (lines : List String) (last : String) : String :=
  String.join (lines.map (· ++ "\n")) ++ last

theorem bytes_ofLines (lines : List String) (last : String) :
    bytes (ofLines lines last) = terminated 10 (lines.map bytes) (bytes last) := by
  induction lines with
  | nil => simp [ofLines, terminated]
  | cons l lines ih =>
    have hcons : ofLines (l :: lines) last = l ++ "\n" ++ ofLines lines last := by
      simp [ofLines, String.append_assoc]
    have hnewline : bytes "\n" = [10] := by decide
    rw [hcons, bytes_append, bytes_append, ih, List.map_cons, terminated_cons, hnewline,
      List.append_assoc, List.singleton_append]

theorem exists_ofLines (s : String) :
    ∃ lines last, (∀ l ∈ lines, '\n' ∉ l.toList) ∧ '\n' ∉ last.toList ∧ s = ofLines lines last := by
  obtain ⟨ls, last, hls, hlast, hs⟩ := exists_terminated '\n' s.toList
  refine ⟨ls.map String.ofList, String.ofList last, ?_, ?_, ?_⟩
  · simpa using hls
  · simpa using hlast
  · rw [← String.toList_inj, hs]
    simp [ofLines, terminated, List.flatMap_map, Function.comp_def]

/-- Only carriage returns are cut, and all that are at the end. -/
theorem exists_append_withoutReturns (s : String) :
    ∃ n, s = Source.withoutReturns s ++ String.ofList (List.replicate n '\r') ∧
      (Source.withoutReturns s).toList.getLast? ≠ some '\r' := by
  set kept := s.toList.rdropWhile (· == '\r') with hkept
  have hwithout : Source.withoutReturns s = String.ofList kept := rfl
  refine ⟨(s.toList.rtakeWhile (· == '\r')).length, ?_, ?_⟩
  · have hcut : s.toList.rtakeWhile (· == '\r') =
        List.replicate (s.toList.rtakeWhile (· == '\r')).length '\r' :=
      List.eq_replicate_of_mem fun c hc =>
        beq_iff_eq.1 (List.mem_rtakeWhile_imp (p := (· == '\r')) hc)
    rw [← hcut, hwithout, ← String.ofList_append, hkept, List.rdropWhile_append_rtakeWhile,
      String.ofList_toList]
  · rw [hwithout, String.toList_ofList]
    intro hlast
    have hne : kept ≠ [] := fun hnil => nomatch hnil ▸ hlast
    rw [List.getLast?_eq_some_getLast hne, Option.some.injEq] at hlast
    exact List.rdropWhile_last_not _ _ hne (beq_iff_eq.2 hlast)

theorem mem_of_mem_withoutReturns (h : c ∈ (Source.withoutReturns s).toList) : c ∈ s.toList := by
  obtain ⟨n, hs, -⟩ := exists_append_withoutReturns s
  rw [hs, String.toList_append]
  exact List.mem_append_left _ h

/-- What ends in no carriage return is kept. -/
theorem withoutReturns_eq_self (h : s.toList.getLast? ≠ some '\r') :
    Source.withoutReturns s = s := by
  have hkept : s.toList.rdropWhile (· == '\r') = s.toList := by
    rw [List.rdropWhile_eq_self_iff]
    intro hne hlast
    exact h (by rw [List.getLast?_eq_some_getLast hne, beq_iff_eq.1 hlast])
  exact (congrArg String.ofList hkept).trans String.ofList_toList

end Text

namespace Source

variable {s last : String} {lines : List String}

theorem decode_bytes (s : String) : decode (Text.bytes s) = .ok (withoutReturns s) := by
  rw [decode, Text.fromUTF8?_eq_some_iff.2 rfl]

/-- The lines of a text are those that its newlines end, and what follows the last of them. -/
theorem linesOf_text (hlines : ∀ l ∈ lines, '\n' ∉ l.toList) (hlast : '\n' ∉ last.toList) :
    linesOf (Text.bytes (Text.ofLines lines last)) =
      (lines ++ if last = "" then [] else [last]).map fun l => .ok (withoutReturns l) := by
  have hps : ∀ p ∈ lines.map Text.bytes, 10 ∉ p := by
    rw [List.forall_mem_map]
    exact fun l hl h => hlines l hl (Text.newline_mem_bytes h)
  rw [linesOf, Text.bytes_ofLines, pieces_terminated hps fun h => hlast (Text.newline_mem_bytes h)]
  simp only [Text.bytes_eq_nil_iff]
  split <;> simp [decode_bytes]

/-- The lines of a text are those of the text that is written with a newline after each. -/
theorem exists_linesOf_text (s : String) :
    ∃ lines : List String, linesOf (Text.bytes s) = lines.map .ok ∧
      linesOf (Text.bytes (Text.ofLines lines "")) = lines.map .ok := by
  obtain ⟨ls, last, hls, hlast, rfl⟩ := Text.exists_ofLines s
  refine ⟨(ls ++ if last = "" then [] else [last]).map withoutReturns, ?_, ?_⟩
  · rw [linesOf_text hls hlast, List.map_map]
    rfl
  · have hlines : ∀ l ∈ (ls ++ if last = "" then [] else [last]).map withoutReturns,
        '\n' ∉ l.toList := by
      rw [List.forall_mem_map]
      intro l hl h
      have hnewline := Text.mem_of_mem_withoutReturns h
      rcases List.mem_append.1 hl with hl | hl
      · exact hls l hl hnewline
      · split at hl
        · cases hl
        · rw [List.mem_singleton.1 hl] at hnewline
          exact hlast hnewline
    rw [linesOf_text hlines (by simp), if_pos rfl, List.append_nil, List.map_map, List.map_map]
    refine List.map_congr_left fun l _ => ?_
    obtain ⟨n, -, hlast⟩ := Text.exists_append_withoutReturns l
    exact congrArg Except.ok (Text.withoutReturns_eq_self hlast)

end Source

/-! ## Reading -/

/-- What reading a piece gives: a text, of which the piece is the encoding but for carriage
    returns at the end, or a fault of the source if it is not the encoding of a text. -/
inductive Piece.Gives (piece : List UInt8) : Except Fault String → Prop
  | text {s : String} (n : Nat) :
      Text.bytes (s ++ String.ofList (List.replicate n '\r')) = piece →
      s.toList.getLast? ≠ some '\r' → Gives piece (.ok s)
  | notText {f : Fault} :
      (∀ s, Text.bytes s ≠ piece) →
      f.report = ⟨.source, "Failed to read input", "stream did not contain valid UTF-8"⟩ →
      Gives piece (.error f)

theorem Piece.gives_decode (piece : List UInt8) :
    Gives piece ((Source.decode piece).mapError .sourceFailed) := by
  unfold Source.decode
  split
  · rename_i s hs
    obtain ⟨n, hn, hlast⟩ := Text.exists_append_withoutReturns s
    refine .text n ?_ hlast
    rw [← hn]
    exact Text.fromUTF8?_eq_some_iff.1 hs
  · rename_i hnone
    refine .notText (fun s hs => ?_) rfl
    rw [Text.fromUTF8?_eq_some_iff.2 hs] at hnone
    cases hnone

/-- All that reading gives, one line after the other, until there is none. -/
inductive Machine.Reads : Machine → List (Except Fault String) → Prop
  | done {m m' : Machine} : Run.readLine m = .ok none m' → Reads m []
  | line {m m' : Machine} {s : String} {answers : List (Except Fault String)} :
      Run.readLine m = .ok (some s) m' → Reads m' answers → Reads m (.ok s :: answers)
  | fault {m m' : Machine} {f : Fault} {answers : List (Except Fault String)} :
      Run.readLine m = .error (.fault f) m' → Reads m' answers → Reads m (.error f :: answers)

theorem Machine.Reads.unique {m : Machine} {answers answers' : List (Except Fault String)}
    (h : m.Reads answers) (h' : m.Reads answers') : answers = answers' := by
  induction h generalizing answers' with
  | done hread => cases h' <;> simp_all
  | line hread _ ih =>
    cases h' with
    | line hread' h' =>
      rw [hread] at hread'
      cases hread'
      rw [ih h']
    | _ => simp_all
  | fault hread _ ih =>
    cases h' with
    | fault hread' h' =>
      rw [hread] at hread'
      cases hread'
      rw [ih h']
    | _ => simp_all

/-- The lines of a script are read in order, whatever comes of those before. -/
theorem Machine.reads_script {m : Machine} {lines : List ScriptLine}
    (h : m.source = .script lines) : m.Reads (lines.map (·.mapError .sourceFailed)) := by
  induction lines generalizing m with
  | nil => exact .done (by rw [Run.readLine, h]; rfl)
  | cons l lines ih =>
    rcases l with reason | s
    · exact .fault (by rw [Run.readLine, h]; rfl) (ih rfl)
    · exact .line (by rw [Run.readLine, h]; rfl) (ih rfl)

/-- A script is read piece by piece: one line or one fault for each of its pieces that ends in a
    newline, and for what follows the last if that is something. On a text there are no faults,
    and its lines, with a newline after each, are read as the same lines. -/
theorem script_read_by_pieces {bytes : List UInt8} {m : Machine} (h : m.source = .ofBytes bytes) :
    (∃ ps last, (∀ p ∈ ps, 10 ∉ p) ∧ 10 ∉ last ∧ bytes = terminated 10 ps last ∧
      ∃ answers, (∀ a, m.Reads a ↔ a = answers) ∧
        List.Forall₂ Piece.Gives (ps ++ if last = [] then [] else [last]) answers) ∧
    ∀ s, bytes = Text.bytes s → ∃ lines : List String, m.Reads (lines.map .ok) ∧
      ∀ {m' : Machine}, m'.source = .ofBytes (Text.bytes (Text.ofLines lines "")) →
        m'.Reads (lines.map .ok) := by
  refine ⟨?_, ?_⟩
  · obtain ⟨ps, last, hps, hlast, hbytes⟩ := exists_terminated 10 bytes
    have hreads := Machine.reads_script h
    refine ⟨ps, last, hps, hlast, hbytes, _, fun a => ⟨fun ha => ha.unique hreads, ?_⟩, ?_⟩
    · rintro rfl
      exact hreads
    rw [Source.linesOf, hbytes, Source.pieces_terminated hps hlast, List.map_map]
    exact List.forall₂_map_right_iff.2 (List.forall₂_same.2 fun p _ => Piece.gives_decode p)
  · rintro s rfl
    obtain ⟨lines, hlines, hwritten⟩ := Source.exists_linesOf_text s
    have hreads : ∀ {m : Machine} {bytes : List UInt8}, m.source = .ofBytes bytes →
        Source.linesOf bytes = lines.map .ok → m.Reads (lines.map .ok) := by
      intro m bytes hm hbytes
      have hread := Machine.reads_script hm
      rwa [hbytes, List.map_map] at hread
    exact ⟨lines, hreads h hlines, fun hm' => hreads hm' hwritten⟩

/-- A carriage return before a newline is no part of the line, and there is a line between two
    newlines. -/
theorem script_read_by_pieces_returns :
    let bytes := Text.bytes "let x = 1\r\n\nprint(x)"
    let m := Machine.start (.ofBytes bytes) (fun _ => .error .notFound) (mkStdGen 0)
    m.source = .ofBytes bytes ∧ ∃ lines : List String, m.Reads (lines.map .ok) ∧
      lines = ["let x = 1", "", "print(x)"] := by
  intro bytes m
  obtain ⟨-, htext⟩ := script_read_by_pieces (m := m) rfl
  obtain ⟨lines, hlines, -⟩ := htext _ rfl
  refine ⟨rfl, lines, hlines, ?_⟩
  have hcut : Source.linesOf bytes = ["let x = 1", "", "print(x)"].map .ok := by
    decide +kernel
  have hread := (Machine.reads_script (m := m) rfl).unique hlines
  rw [hcut, List.map_map] at hread
  exact ((List.map_inj_right fun _ _ => Except.ok.inj).1 hread).symm

end Linewise
