import Mathlib.Data.List.DropRight
import Mathlib.Data.List.Infix
import Restyle.Log

/-!
# Notices are logged once

A `Request` is one thing that is asked of a log. A log tells notices apart by their keys, which hold
component and message in one text, so two different notices have one key where the component of the
one goes on with a mark and text that the message of the other starts with (`key_eq_iff`). Main
statement: a notice is logged unless it was logged since the log last forgot its notices, or another
notice of this kind was (`notice_afterAll`).
-/

namespace Restyle.Log

/-- What is asked of a log. -/
inductive Request where
  /-- A notice is to be logged. -/
  | notice (component message : String)
  /-- A malformed style source is to be logged. -/
  | unparsable (id : NodeId) (kind : SourceKind) (error : Css.ParseError)
  /-- All notices are to count as new. -/
  | forget
deriving DecidableEq, Repr

/-- The log after a request. -/
def answer (log : Log) : Request → Log
  | .notice component message => log.notice component message
  | .unparsable id kind error => log.unparsable id kind error
  | .forget => log.forget

/-- The log after a history of requests. -/
def afterAll (requests : List Request) : Log :=
  requests.foldl answer empty

/-- The requests of a history since the notices were last forgotten. -/
def sinceForget (requests : List Request) : List Request :=
  requests.rtakeWhile (· ≠ .forget)

/-! ## Keys -/

/-- The mark that ends the component in a key. -/
def endMark : List Char :=
  [']', ' ']

/-- Whether a component goes on, after the end mark, with text that a message starts with, so that
it makes one key with the rest of the message. -/
def RunsOver (component message longer rest : String) : Prop :=
  ∃ text, longer.toList = component.toList ++ endMark ++ text ∧
    message.toList = text ++ endMark ++ rest.toList

theorem RunsOver.mark_infix {component message longer rest : String}
    (h : RunsOver component message longer rest) : endMark <:+: longer.toList := by
  obtain ⟨text, hlonger, -⟩ := h
  exact ⟨component.toList, text, hlonger.symm⟩

theorem toList_key (component message : String) :
    (key component message).toList = '[' :: (component.toList ++ (endMark ++ message.toList)) := by
  simp [key, endMark]

/-- Text before two end marks is none, or it starts with the first of them. -/
theorem mark_append_cases {text m rest : List Char}
    (h : endMark ++ m = text ++ (endMark ++ rest)) :
    text = [] ∧ m = rest ∨ ∃ inner, text = endMark ++ inner ∧ m = inner ++ endMark ++ rest := by
  rcases text with _ | ⟨c, _ | ⟨d, inner⟩⟩
  · exact .inl ⟨rfl, List.append_cancel_left h⟩
  · simp [endMark] at h
  · simp only [endMark, List.cons_append, List.nil_append, List.cons.injEq] at h
    obtain ⟨rfl, rfl, rfl⟩ := h
    exact .inr ⟨inner, rfl, by simp [endMark]⟩

/-- Two notices have one key if they are equal or one of them runs over into the other. -/
theorem key_eq_iff {c m c' m' : String} :
    key c m = key c' m' ↔ c = c' ∧ m = m' ∨ RunsOver c m c' m' ∨ RunsOver c' m' c m := by
  rw [← String.toList_inj, toList_key, toList_key, List.cons.injEq]
  constructor
  · rintro ⟨-, h⟩
    rcases List.append_eq_append_iff.1 h with ⟨text, hc, hm⟩ | ⟨text, hc, hm⟩
    · rcases mark_append_cases hm with ⟨rfl, hrest⟩ | ⟨inner, rfl, hrest⟩
      · exact .inl ⟨(String.toList_inj.1 (by simpa using hc)).symm, String.toList_inj.1 hrest⟩
      · exact .inr (.inl ⟨inner, by simpa using hc, hrest⟩)
    · rcases mark_append_cases hm with ⟨rfl, hrest⟩ | ⟨inner, rfl, hrest⟩
      · exact .inl ⟨String.toList_inj.1 (by simpa using hc), (String.toList_inj.1 hrest).symm⟩
      · exact .inr (.inr ⟨inner, by simpa using hc, hrest⟩)
  · rintro (⟨rfl, rfl⟩ | ⟨text, hc, hm⟩ | ⟨text, hc, hm⟩)
    · exact ⟨rfl, rfl⟩
    · exact ⟨rfl, by simp [hc, hm]⟩
    · exact ⟨rfl, by simp [hc, hm]⟩

/-! ## One request -/

theorem hasNoticed_iff {log : Log} {component message : String} :
    log.hasNoticed component message ↔ key component message ∈ log.keys :=
  List.contains_iff_mem

theorem mem_keys_notice {log : Log} {component message k : String} :
    k ∈ (log.notice component message).keys ↔ k ∈ log.keys ∨ k = key component message := by
  rw [notice]
  split_ifs with h
  · refine (or_iff_left_of_imp ?_).symm
    rintro rfl
    exact hasNoticed_iff.1 h
  · rw [List.mem_cons, or_comm]

theorem warnings_notice (log : Log) (component message : String) :
    (log.notice component message).warnings =
      log.warnings ++
        if log.hasNoticed component message then [] else [.notice component message] := by
  rw [notice]
  split_ifs
  · rw [List.append_nil]
  · rfl

/-! ## Histories -/

theorem afterAll_concat (requests : List Request) (r : Request) :
    afterAll (requests ++ [r]) = (afterAll requests).answer r :=
  List.foldl_concat _ _ _ _

theorem sinceForget_concat {r : Request} (hr : r ≠ .forget) (requests : List Request) :
    sinceForget (requests ++ [r]) = sinceForget requests ++ [r] :=
  List.rtakeWhile_concat_pos _ _ _ (by simpa using hr)

theorem sinceForget_forget (requests : List Request) :
    sinceForget (requests ++ [.forget]) = [] :=
  List.rtakeWhile_concat_neg _ _ _ (by simp)

/-- The keys are those of the notices since the last were forgotten. -/
theorem mem_keys_afterAll (requests : List Request) (k : String) :
    k ∈ (afterAll requests).keys ↔
      ∃ component message, .notice component message ∈ sinceForget requests ∧
        key component message = k := by
  induction requests using List.reverseRecOn with
  | nil => simp [afterAll, empty, sinceForget]
  | append_singleton requests r ih =>
    rw [afterAll_concat]
    cases r with
    | notice component message =>
      rw [sinceForget_concat (by simp), answer, mem_keys_notice, ih]
      constructor
      · rintro (⟨c, m, hmem, rfl⟩ | rfl)
        · exact ⟨c, m, List.mem_append_left _ hmem, rfl⟩
        · exact ⟨component, message, by simp, rfl⟩
      · rintro ⟨c, m, hmem, rfl⟩
        rw [List.mem_append, List.mem_singleton] at hmem
        rcases hmem with hmem | heq
        · exact .inl ⟨c, m, hmem, rfl⟩
        · cases heq
          exact .inr rfl
    | unparsable id kind error =>
      rw [sinceForget_concat (by simp)]
      simpa [answer, unparsable] using ih
    | forget => simp [sinceForget_forget, answer, forget]

/-- In every history, a notice counts as logged if it was asked for since the notices were last
forgotten, or another one with the same key was; it is logged exactly if it does not count as
logged. Where no component holds the mark that ends it, no other notice has the same key. -/
theorem notice_afterAll (requests : List Request) (component message : String) :
    ((afterAll requests).hasNoticed component message ↔
      .notice component message ∈ sinceForget requests ∨
        ∃ c m, .notice c m ∈ sinceForget requests ∧
          (RunsOver c m component message ∨ RunsOver component message c m)) ∧
    (afterAll (requests ++ [.notice component message])).warnings =
      (afterAll requests).warnings ++
        (if (afterAll requests).hasNoticed component message then []
          else [.notice component message]) ∧
    ((∀ c m, .notice c m ∈ .notice component message :: sinceForget requests →
        ¬ endMark <:+: c.toList) →
      ((afterAll requests).hasNoticed component message ↔
        .notice component message ∈ sinceForget requests)) := by
  have hnoticed : (afterAll requests).hasNoticed component message ↔
      .notice component message ∈ sinceForget requests ∨
        ∃ c m, .notice c m ∈ sinceForget requests ∧
          (RunsOver c m component message ∨ RunsOver component message c m) := by
    rw [hasNoticed_iff, mem_keys_afterAll]
    constructor
    · rintro ⟨c, m, hmem, hkey⟩
      rcases key_eq_iff.1 hkey with ⟨rfl, rfl⟩ | hruns
      · exact .inl hmem
      · exact .inr ⟨c, m, hmem, hruns⟩
    · rintro (hmem | ⟨c, m, hmem, hruns⟩)
      · exact ⟨component, message, hmem, rfl⟩
      · exact ⟨c, m, hmem, key_eq_iff.2 (.inr hruns)⟩
  refine ⟨hnoticed, ?_, fun hmark => ?_⟩
  · rw [afterAll_concat, answer, warnings_notice]
  · refine hnoticed.trans (or_iff_left ?_)
    rintro ⟨c, m, hmem, hruns | hruns⟩
    · exact hmark component message List.mem_cons_self hruns.mark_infix
    · exact hmark c m (List.mem_cons_of_mem _ hmem) hruns.mark_infix

/-- A notice about a selector that holds a bracket, logged before one about another selector. -/
theorem notice_afterAll_selector :
    (∀ c m, .notice c m ∈ .notice "css" "[b] c" ::
        sinceForget [.forget, .notice "css" "a] b"] → ¬ endMark <:+: c.toList) ∧
      ((afterAll [.forget, .notice "css" "a] b"]).hasNoticed "css" "[b] c" ↔
        .notice "css" "[b] c" ∈ sinceForget [.forget, .notice "css" "a] b"]) := by
  have hmark : ∀ c m, .notice c m ∈ .notice "css" "[b] c" ::
      sinceForget [.forget, .notice "css" "a] b"] → ¬ endMark <:+: c.toList := by
    intro c m hmem
    have hc : c = "css" := by
      simp only [show sinceForget [.forget, .notice "css" "a] b"] = [.notice "css" "a] b"] from rfl,
        List.mem_cons, List.not_mem_nil, Request.notice.injEq] at hmem
      tauto
    rw [hc]
    decide
  exact ⟨hmark, (notice_afterAll _ _ _).2.2 hmark⟩

/-- A notice is lost when another one has the same key. -/
theorem notice_lost :
    .notice "a] b" "c" ∉ sinceForget [.notice "a" "b] c"] ∧
      (afterAll [.notice "a" "b] c"]).hasNoticed "a] b" "c" ∧
      (afterAll [.notice "a" "b] c", .notice "a] b" "c"]).warnings = [.notice "a" "b] c"] := by
  decide +kernel

end Restyle.Log
