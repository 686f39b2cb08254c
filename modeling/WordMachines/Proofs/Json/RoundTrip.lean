import Mathlib.Tactic
import WordMachines.Json.Identifier
import WordMachines.Proofs.Json.Grammar

/-!
# Reading back what was written

A reader takes what a writer has put down off the front of a text again, whatever follows: save what
a number could go on with, since nothing marks the end of a number. Lists and objects have this
property if their members do.
-/

namespace WordMachines.Json

/-- No number that stands before `rest` goes on in it. -/
def EndsNumber (rest : List Char) : Prop :=
  ∀ c ∈ rest.head?, c.isDigit = false ∧ c ≠ '.' ∧ c ≠ 'e' ∧ c ≠ 'E'

theorem endsNumber_of_isSpace {c : Char} (h : isSpace c) (rest : List Char) :
    EndsNumber (c :: rest) := by
  rintro d ⟨⟩
  simp only [isSpace, Bool.or_eq_true, decide_eq_true_eq] at h
  rcases h with ((rfl | rfl) | rfl) | rfl <;> decide

theorem EndsNumber.space (s : Space) {rest : List Char} (h : EndsNumber rest) :
    EndsNumber (s.chars ++ rest) := by
  rcases s with ⟨_ | ⟨c, cs⟩, hs⟩
  · exact h
  · exact endsNumber_of_isSpace (List.all_eq_true.mp hs c List.mem_cons_self) _

theorem Space.dropSpace_append (s : Space) (rest : List Char) :
    dropSpace (s.chars ++ rest) = dropSpace rest :=
  List.dropWhile_append_of_pos (List.all_eq_true.mp s.all_isSpace)

/-- Whether a value other than `null` may begin with `c`. -/
def isOpening (c : Char) : Bool :=
  c = '"' || c = '[' || c = '{' || c = '-' || c = 't' || c = 'f' || c.isDigit

/-- A value as it is written: no white space, no separator and no `null` comes first. -/
def Opens (cs : List Char) : Prop := ∃ c tail, cs = c :: tail ∧ isOpening c

theorem isSpace_of_isOpening {c : Char} (h : isOpening c) : isSpace c = false := by
  rw [Bool.eq_false_iff]
  intro hspace
  simp only [isSpace, Bool.or_eq_true, decide_eq_true_eq] at hspace
  rcases hspace with ((rfl | rfl) | rfl) | rfl <;> exact absurd h (by decide)

theorem ne_of_isOpening {c d : Char} (h : isOpening c) (hd : isOpening d = false) : c ≠ d := by
  rintro rfl
  rw [h] at hd
  contradiction

namespace Opens

variable {cs : List Char} (h : Opens cs)
include h

theorem append (rest : List Char) : Opens (cs ++ rest) := by
  obtain ⟨c, tail, rfl, hc⟩ := h
  exact ⟨c, tail ++ rest, rfl, hc⟩

theorem dropSpace_eq : dropSpace cs = cs := by
  obtain ⟨c, tail, rfl, hc⟩ := h
  exact List.dropWhile_cons_of_neg (by rw [isSpace_of_isOpening hc]; exact Bool.false_ne_true)

end Opens

namespace Bracket

variable (b : Bracket)

theorem isOpening_close : isOpening b.close = false := by
  cases b <;> decide

theorem endsNumber_close (rest : List Char) : EndsNumber (b.close :: rest) := by
  rintro c ⟨⟩
  cases b <;> decide

end Bracket

/-- `r` takes `cs` off the front of a text and gives `x` for it. -/
def Reads {β : Type} (r : Reader β) (cs : List Char) (x : β) : Prop :=
  ∀ rest, EndsNumber rest → r (cs ++ rest) = .ok (x, rest)

theorem bind_eq {β γ : Type} {r : Reader β} {f : β → Reader γ} {cs rest : List Char} {x : β}
    (h : r cs = .ok (x, rest)) : (r >>= f) cs = f x rest := by
  change (r cs >>= fun p => f p.1 p.2) = _
  rw [h]
  rfl

namespace Reads

variable {β γ : Type} {r : Reader β} {cs : List Char} {x : β}

theorem map (h : Reads r cs x) (f : β → γ) : Reads (f <$> r) cs (f x) := by
  intro rest hrest
  change (r (cs ++ rest) >>= fun p => .ok (f p.1, p.2)) = _
  rw [h rest hrest]
  rfl

/-- A check of what has been read that lets it pass. -/
theorem check {f : β → Except Fault γ} {y : γ} (h : Reads r cs x) (hf : f x = .ok y) :
    Reads (do f (← r)) cs y := by
  intro rest hrest
  rw [bind_eq (h rest hrest), hf]
  rfl

theorem optional (h : Reads r cs x) (hopens : Opens cs) : Reads (readOptional r) cs (some x) := by
  intro rest hrest
  obtain ⟨c, tail, hcs, hc⟩ := hopens.append rest
  have hn : c ≠ 'n' := ne_of_isOpening hc (by decide)
  unfold readOptional
  rw [(hopens.append rest).dropSpace_eq]
  split
  · rename_i heq
    rw [hcs, List.cons.injEq] at heq
    exact absurd heq.1 hn
  · rw [h rest hrest]
    rfl

end Reads

theorem readOptional_space {β : Type} (r : Reader β) (s : Space) (cs : List Char) :
    readOptional r (s.chars ++ cs) = readOptional r cs := by
  unfold readOptional
  rw [s.dropSpace_append]

theorem endsNumber_colon (rest : List Char) : EndsNumber (':' :: rest) := by
  rintro c ⟨⟩
  decide

theorem endsNumber_comma (rest : List Char) : EndsNumber (',' :: rest) := by
  rintro c ⟨⟩
  decide

theorem readColon_space (s : Space) (rest : List Char) :
    readColon (s.chars ++ ':' :: rest) = .ok ((), rest) := by
  unfold readColon
  rw [s.dropSpace_append]
  rfl

theorem finish_space (s : Space) : finish s.chars = .ok () := by
  have hspace := s.dropSpace_append []
  rw [List.append_nil] at hspace
  rw [finish, hspace]
  rfl

/-- `r` takes the text `t` save for white space around it. -/
def Takes {β : Type} (r : Reader β) (t : List Char) (x : β) : Prop :=
  ∃ (before after : Space) (core : List Char), t = before.chars ++ (core ++ after.chars) ∧
    Opens core ∧ Reads r core x

theorem Reads.takes {β : Type} {r : Reader β} {t : List Char} {x : β} (h : Reads r t x)
    (hopens : Opens t) : Takes r t x :=
  ⟨.none, .none, t, by simp [Space.none], hopens, h⟩

/-- `r` refuses every text that begins with `t`, white space before it aside. -/
def Refuses {β : Type} (r : Reader β) (t : List Char) (fault : Fault) : Prop :=
  ∃ (before : Space) (core : List Char), t = before.chars ++ core ∧ Opens core ∧
    ∀ rest, r (core ++ rest) = .error fault

/-- Every value is read from the text that is written for it. -/
structure RoundTrips {β : Type} (value : Reader β) (write : β → List Char) : Prop where
  opens : ∀ x, Opens (write x)
  reads : ∀ x, Reads value (write x) x

section Members

variable {σ : Type} {member : σ → Reader σ} {s s' : σ} {r : Except Fault σ}
  {ts : List (List Char)}

/-- `member` takes one text after the other, each from the state to which the one before has led,
up to one that it refuses if there is one. -/
inductive ReadsInTurn (member : σ → Reader σ) : σ → List (List Char) → Except Fault σ → Prop
  | nil (s : σ) : ReadsInTurn member s [] (.ok s)
  | cons {s s' : σ} {r : Except Fault σ} {t : List Char} {ts : List (List Char)}
      (takes : Takes (member s) t s') (rest : ReadsInTurn member s' ts r) :
      ReadsInTurn member s (t :: ts) r
  | refused {s : σ} {fault : Fault} {t : List Char} (refuses : Refuses (member s) t fault)
      (ts : List (List Char)) : ReadsInTurn member s (t :: ts) (.error fault)

theorem ReadsInTurn.foldl {ι : Type} {text : ι → List Char} {step : σ → ι → σ}
    (hopens : ∀ i, Opens (text i)) (hreads : ∀ s i, Reads (member s) (text i) (step s i))
    (xs : List ι) (s : σ) : ReadsInTurn member s (xs.map text) (.ok (xs.foldl step s)) := by
  induction xs generalizing s with
  | nil => exact .nil s
  | cons x xs ih => exact .cons ((hreads s x).takes (hopens x)) (ih (step s x))

/-- Each member but the first has its comma before it. -/
theorem writeJoined_cons (t : List Char) (ts : List (List Char)) :
    writeJoined (t :: ts) = t ++ ts.flatMap (',' :: ·) := by
  induction ts generalizing t with
  | nil => simp [writeJoined]
  | cons u ts ih => rw [writeJoined, ih, List.flatMap_cons, List.cons_append]; simp

theorem length_le_length_flatMap (ts : List (List Char)) :
    ts.length ≤ (ts.flatMap (',' :: ·)).length := by
  induction ts with
  | nil => exact le_rfl
  | cons t ts ih =>
    rw [List.flatMap_cons, List.length_append, List.length_cons, List.length_cons]
    omega

theorem endsNumber_flatMap (ts : List (List Char)) {rest : List Char} (h : EndsNumber rest) :
    EndsNumber (ts.flatMap (',' :: ·) ++ rest) := by
  cases ts with
  | nil => exact h
  | cons t ts => exact endsNumber_comma _

theorem readMore_close (b : Bracket) (fuel : ℕ) (s : σ) (rest : List Char) :
    readMore b.close member (fuel + 1) s (b.close :: rest) = .ok (s, rest) := by
  cases b <;> rfl

theorem readMore_space (close : Char) (fuel : ℕ) (s : σ) (sp : Space) (rest : List Char) :
    readMore close member fuel s (sp.chars ++ rest) = readMore close member fuel s rest := by
  cases fuel with
  | zero => rfl
  | succ fuel =>
    unfold readMore
    rw [sp.dropSpace_append]

theorem readMore_comma (b : Bracket) (fuel : ℕ) (s : σ) (before : Space) {cs : List Char}
    (h : Opens cs) :
    readMore b.close member (fuel + 1) s (',' :: (before.chars ++ cs)) =
      member s cs >>= fun p => readMore b.close member fuel p.1 p.2 := by
  have hclose : ',' ≠ b.close := by cases b <;> decide
  have hcomma (cs : List Char) : dropSpace (',' :: cs) = ',' :: cs := rfl
  have hcs := h.dropSpace_eq
  obtain ⟨c, tail, rfl, -⟩ := h
  simp only [readMore, hcomma, hclose, if_false, if_true, before.dropSpace_append, hcs]

theorem readMore_flatMap (b : Bracket) (h : ReadsInTurn member s ts r) {fuel : ℕ}
    (hfuel : ts.length < fuel) (rest : List Char) :
    readMore b.close member fuel s (ts.flatMap (',' :: ·) ++ b.close :: rest) =
      r.map (·, rest) := by
  -- each member costs one round, and the closing bracket one more
  obtain ⟨n, rfl⟩ := Nat.exists_eq_add_one_of_ne_zero (Nat.ne_of_gt (Nat.zero_lt_of_lt hfuel))
  induction h generalizing n with
  | nil s => exact readMore_close b n s rest
  | cons htakes _ ih =>
    rename_i s₁ _ _ ts _
    obtain ⟨before, after, core, rfl, hopens, hreads⟩ := htakes
    have hends := (endsNumber_flatMap ts (b.endsNumber_close rest)).space after
    rw [List.length_cons] at hfuel
    obtain ⟨n, rfl⟩ : ∃ m, n = m + 1 := ⟨n - 1, by omega⟩
    simp only [List.flatMap_cons, List.append_assoc, List.cons_append]
    rw [readMore_comma b _ _ before (hopens.append _), hreads _ hends]
    change readMore b.close member _ s₁ (after.chars ++ _) = _
    rw [readMore_space]
    exact ih n (by omega)
  | refused hrefuses ts =>
    obtain ⟨before, core, rfl, hopens, hrefuses⟩ := hrefuses
    simp only [List.flatMap_cons, List.append_assoc, List.cons_append]
    rw [readMore_comma b _ _ before (hopens.append _), hrefuses]
    rfl

theorem readMembers_of_opens (b : Bracket) (s : σ) (inner before : Space) {cs : List Char}
    (h : Opens cs) :
    readMembers b.close member s (inner.chars ++ (before.chars ++ cs)) =
      member s cs >>= fun p => readMore b.close member (p.2.length + 1) p.1 p.2 := by
  have hcs := h.dropSpace_eq
  obtain ⟨c, tail, rfl, hc⟩ := h
  rw [readMembers, inner.dropSpace_append, before.dropSpace_append, hcs]
  exact if_neg (ne_of_isOpening hc b.isOpening_close)

/-- White space may stand before the first member, or alone if there is none. -/
theorem readMembers_writeJoined (b : Bracket) (inner : Space) (h : ReadsInTurn member s ts r)
    (rest : List Char) :
    readMembers b.close member s (inner.chars ++ (writeJoined ts ++ b.close :: rest)) =
      r.map (·, rest) := by
  cases h with
  | nil =>
    rw [readMembers, inner.dropSpace_append]
    cases b <;> rfl
  | cons htakes hrest =>
    rename_i s₁ t ts
    obtain ⟨before, after, core, rfl, hopens, hreads⟩ := htakes
    have hends := (endsNumber_flatMap ts (b.endsNumber_close rest)).space after
    have hlength := length_le_length_flatMap ts
    simp only [writeJoined_cons, List.append_assoc]
    rw [readMembers_of_opens b s inner before (hopens.append _), hreads _ hends]
    change readMore b.close member _ s₁ (after.chars ++ _) = _
    rw [readMore_space]
    exact readMore_flatMap b hrest (by simp only [List.length_append, List.length_cons]; omega) rest
  | refused hrefuses ts =>
    obtain ⟨before, core, rfl, hopens, hrefuses⟩ := hrefuses
    simp only [writeJoined_cons, List.append_assoc]
    rw [readMembers_of_opens b s inner before (hopens.append _), hrefuses]
    rfl

end Members

theorem opens_writeList (ts : List (List Char)) : Opens (writeList ts) := ⟨'[', _, rfl, rfl⟩

theorem opens_writeObject (ms : List (List Char × List Char)) : Opens (writeObject ms) :=
  ⟨'{', _, rfl, rfl⟩

theorem RoundTrips.list {β : Type} {item : Reader β} {write : β → List Char}
    (h : RoundTrips item write) :
    RoundTrips (readList item) fun xs => writeList (xs.map write) where
  opens xs := opens_writeList _
  reads xs := by
    intro rest _
    have hitem (ys : List β) (x : β) :
        Reads (do return ys ++ [← item]) (write x) (ys ++ [x]) := (h.reads x).map (ys ++ [·])
    have hturn := ReadsInTurn.foldl h.opens hitem xs []
    have hxs : xs.foldl (fun ys x => ys ++ [x]) [] = xs := by simp [← List.flatMap_def]
    rw [hxs] at hturn
    have hmembers := readMembers_writeJoined .list .none hturn rest
    rw [writeList, List.cons_append, List.append_assoc]
    exact hmembers

/-- A member of an object is taken if its key and its value are. -/
theorem reads_entry {β γ σ : Type} {key : Reader β} {writeKey : β → List Char}
    {value : Reader γ} {write : γ → List Char} (hkey : RoundTrips key writeKey)
    (hvalue : RoundTrips value write) (put : σ → β → γ → σ) (s : σ) (k : β) (v : γ) :
    Reads (readEntry key value put s) (writeKey k ++ ':' :: write v) (put s k v) := by
  intro rest hrest
  have hk := hkey.reads k (':' :: (write v ++ rest)) (endsNumber_colon _)
  have hcolon : readColon (':' :: (write v ++ rest)) = .ok ((), write v ++ rest) :=
    readColon_space .none _
  rw [List.append_assoc, List.cons_append, readEntry, bind_eq hk, bind_eq hcolon,
    bind_eq (hvalue.reads v rest hrest)]
  rfl

end WordMachines.Json
