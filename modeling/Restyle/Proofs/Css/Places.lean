import Restyle.Proofs.Css.Cutting
import Restyle.Proofs.Css.Grammar

/-!
# Places do not matter

Two runs that differ in the places of their lexemes only are read as the same declarations, steps
and rules.
-/

namespace Restyle.Css

open Lexeme

variable {as bs ls ls' : List Lexeme}

theorem map_plain_plain (ls : List Lexeme) : (ls.map plain).map plain = ls.map plain := by
  rw [List.map_map]
  rfl

section

variable {l l' : Lexeme} (h : l'.plain = l.plain)

include h

theorem token_of_plain : l'.token = l.token := by
  have htoken := congrArg token h
  exact htoken

theorem raw_of_plain : l'.raw = l.raw := by
  have hraw := congrArg raw h
  exact hraw

theorem atName_of_plain : Rule.atName l' = Rule.atName l := by
  have hname := congrArg Rule.atName h
  exact hname

end

theorem map_token_of_plain (h : as.map plain = bs.map plain) : as.map token = bs.map token := by
  have := congrArg (List.map token) h
  rwa [List.map_map, List.map_map] at this

theorem joined_plain (ls : List Lexeme) : joined (ls.map plain) = joined ls := by
  rw [joined, joined, List.flatMap_map]
  rfl

theorem collapsed_plain (ls : List Lexeme) : collapsed (ls.map plain) = collapsed ls := by
  rw [collapsed, collapsed, List.flatMap_map]
  rfl

theorem joined_of_plain (h : as.map plain = bs.map plain) : joined as = joined bs := by
  rw [← joined_plain as, h, joined_plain]

theorem collapsed_of_plain (h : as.map plain = bs.map plain) : collapsed as = collapsed bs := by
  rw [← collapsed_plain as, h, collapsed_plain]

theorem commaPieces_plain (depth : Nat) (ls : List Lexeme) :
    commaPieces depth (ls.map plain) = (commaPieces depth ls).map (·.map plain) := by
  induction ls generalizing depth with
  | nil => rfl
  | cons l ls ih =>
    rw [List.map_cons, commaPieces, commaPieces]
    have htoken : l.plain.token = l.token := rfl
    rw [htoken]
    generalize (if l.token.opensGroup then depth + 1
      else if l.token.closesGroup then depth - 1 else depth) = depth'
    rw [ih]
    split_ifs
    · rfl
    · cases commaPieces depth' ls <;> rfl

/-- A run with a block in it, cut up. -/
theorem exists_of_plain_block {head body rest : List Lexeme} {b r : Lexeme}
    (h : ls.map plain = (head ++ b :: (body ++ r :: rest)).map plain) :
    ∃ head' b' body' r' rest', ls = head' ++ b' :: (body' ++ r' :: rest') ∧
      head'.map plain = head.map plain ∧ b'.token = b.token ∧ body'.map plain = body.map plain ∧
        r'.token = r.token ∧ rest'.map plain = rest.map plain := by
  rw [List.map_append, List.map_cons, List.map_append, List.map_cons] at h
  obtain ⟨head', _, rfl, hhead, h⟩ := List.map_eq_append_iff.1 h
  obtain ⟨b', _, rfl, hb, h⟩ := List.map_eq_cons_iff.1 h
  obtain ⟨body', _, rfl, hbody, h⟩ := List.map_eq_append_iff.1 h
  obtain ⟨r', rest', rfl, hr, hrest⟩ := List.map_eq_cons_iff.1 h
  exact ⟨head', b', body', r', rest', rfl, hhead, token_of_plain hb, hbody, token_of_plain hr,
    hrest⟩

theorem mapM_map_of_eq {f : List Lexeme → Option String} {g : List Lexeme → List Lexeme}
    (h : ∀ p, f (g p) = f p) (ps : List (List Lexeme)) : (ps.map g).mapM f = ps.mapM f := by
  induction ps with
  | nil => rfl
  | cons p ps ih => rw [List.map_cons, List.mapM_cons, List.mapM_cons, h, ih]

theorem selectors?_of_plain (h : as.map plain = bs.map plain) : selectors? as = selectors? bs := by
  have hplain : ∀ ls, selectors? (ls.map plain) = selectors? ls := by
    intro ls
    rw [selectors?, commaPieces_plain, selectors?]
    apply mapM_map_of_eq
    intro p
    dsimp only
    rw [collapsed_plain]
  rw [← hplain as, h, hplain]

/-! ## Values -/

theorem arguments_plain (depth : Nat) (ls : List Lexeme) :
    arguments depth (ls.map plain) =
      ((arguments depth ls).1.map plain, (arguments depth ls).2.map plain) := by
  induction ls generalizing depth with
  | nil => rfl
  | cons l ls ih =>
    obtain ⟨t, source, start⟩ := l
    cases t
    case rightParen =>
      cases depth with
      | zero => rfl
      | succ depth => exact congrArg (fun p => (_ :: p.1, p.2)) (ih depth)
    case function | leftParen => exact congrArg (fun p => (_ :: p.1, p.2)) (ih (depth + 1))
    all_goals exact congrArg (fun p => (_ :: p.1, p.2)) (ih depth)

theorem Value.ofLexemes_plain (ls : List Lexeme) : ofLexemes (ls.map plain) = ofLexemes ls := by
  induction hn : ls.length using Nat.strongRecOn generalizing ls with
  | ind n ih =>
    subst hn
    cases ls with
    | nil => rfl
    | cons l ls =>
      have hls := ih ls.length (Nat.lt_succ_self _) ls rfl
      have hargs := length_arguments 0 ls
      rw [List.map_cons, ofLexemes, ofLexemes]
      have htoken : l.plain.token = l.token := rfl
      have hraw : l.plain.raw = l.raw := rfl
      dsimp only
      rw [htoken, hraw, hls, arguments_plain]
      dsimp only
      rw [ih _ (by rw [List.length_cons]; omega) (arguments 0 ls).1 rfl,
        ih _ (by rw [List.length_cons]; omega) (arguments 0 ls).2 rfl]

theorem dropWhile_isSpace_plain (ls : List Lexeme) :
    (ls.map plain).dropWhile Lexeme.isSpace = (ls.dropWhile Lexeme.isSpace).map plain :=
  List.dropWhile_map

theorem dropSpaceEnd_plain (ls : List Lexeme) :
    dropSpaceEnd (ls.map plain) = (dropSpaceEnd ls).map plain := by
  rw [dropSpaceEnd, dropSpaceEnd, ← List.map_reverse, dropWhile_isSpace_plain, List.map_reverse]

theorem trimSpace_plain (ls : List Lexeme) :
    trimSpace (ls.map plain) = (trimSpace ls).map plain := by
  rw [trimSpace, trimSpace, dropWhile_isSpace_plain, dropSpaceEnd_plain]

namespace Declaration

theorem splitImportant_plain (ls : List Lexeme) :
    splitImportant (ls.map plain) = ((splitImportant ls).1.map plain, (splitImportant ls).2) := by
  unfold splitImportant
  rw [← List.map_reverse]
  cases ls.reverse with
  | nil => rfl
  | cons word before =>
    obtain ⟨t, source, start⟩ := word
    cases t
    case ident name =>
      have hdrop := dropWhile_isSpace_plain before
      have hword : List.map plain (⟨.ident name, source, start⟩ :: before) =
        ⟨.ident name, source, 0⟩ :: before.map plain := rfl
      rw [hword]
      dsimp only
      rw [hdrop]
      cases before.dropWhile Lexeme.isSpace with
      | nil => rfl
      | cons bang value =>
        obtain ⟨t, source', start'⟩ := bang
        cases t
        case delim c =>
          have hbang : List.map plain (⟨.delim c, source', start'⟩ :: value) =
            ⟨.delim c, source', 0⟩ :: value.map plain := rfl
          rw [hbang]
          by_cases hc : c = '!'
          · subst hc
            split_ifs
            · exact Prod.ext List.map_reverse.symm rfl
            · rfl
          · split
            · rename_i heq
              cases heq
              exact absurd rfl hc
            · split
              · rename_i heq
                cases heq
                exact absurd rfl hc
              · rfl
        all_goals rfl
    all_goals rfl

theorem ofLexemes_of_plain (name : String) (h : as.map plain = bs.map plain) :
    ofLexemes name as = ofLexemes name bs := by
  have hplain : ∀ ls, ofLexemes name (ls.map plain) = ofLexemes name ls := by
    intro ls
    rw [ofLexemes, trimSpace_plain, splitImportant_plain, ofLexemes]
    dsimp only
    rw [dropSpaceEnd_plain, List.isEmpty_map, joined_plain, Value.ofLexemes_plain]
  rw [← hplain as, h, hplain]

theorem Reads.of_plain {ds : List Declaration} (h : Reads ls ds)
    (hplain : ls'.map plain = ls.map plain) : Reads ls' ds := by
  induction h generalizing ls' with
  | nil =>
    rw [List.map_nil, List.map_eq_nil_iff] at hplain
    rw [hplain]
    exact .nil
  | @skip l ls ds skipped rest ih =>
    rw [List.map_cons, List.map_eq_cons_iff] at hplain
    obtain ⟨l', ls, rfl, hl, hls⟩ := hplain
    have htoken := token_of_plain hl
    exact .skip (by rwa [htoken]) (ih hls)
  | @declaration l c spaces value rest ds name isName areSpaces isColon isRun ends others ih =>
    simp only [List.map_cons, List.map_append, List.map_eq_cons_iff,
      List.map_eq_append_iff] at hplain
    obtain ⟨l', _, rfl, hl, spaces', _, rfl, hspaces, c', _, rfl, hc, value', rest', rfl, hvalue,
      hrest⟩ := hplain
    have hname := token_of_plain hl
    have hcolon := token_of_plain hc
    rw [← raw_of_plain hl, ← ofLexemes_of_plain _ hvalue]
    rw [← map_token_of_plain hvalue] at isRun
    refine .declaration (hname.trans isName) ?_ (hcolon.trans isColon) isRun ?_ (ih hrest)
    · intro s hs
      have hmem : s.token ∈ spaces.map token := by
        rw [← map_token_of_plain hspaces]
        exact List.mem_map_of_mem hs
      obtain ⟨x, hx, htoken⟩ := List.mem_map.1 hmem
      rw [Lexeme.isSpace, ← htoken]
      exact areSpaces x hx
    · intro e he
      obtain ⟨rest', rfl⟩ := List.head?_eq_some_iff.1 he
      rw [List.map_cons, eq_comm, List.map_eq_cons_iff] at hrest
      obtain ⟨x, _, rfl, hx, -⟩ := hrest
      have htoken := token_of_plain hx.symm
      rw [htoken]
      exact ends x rfl

end Declaration

theorem Keyframe.Reads.of_plain {fs : List Keyframe} (h : Reads ls fs)
    (hplain : ls'.map plain = ls.map plain) : Reads ls' fs := by
  induction h generalizing ls' with
  | nil =>
    rw [List.map_nil, List.map_eq_nil_iff] at hplain
    rw [hplain]
    exact .nil
  | @skip l ls fs isSpace rest ih =>
    rw [List.map_cons, List.map_eq_cons_iff] at hplain
    obtain ⟨l', ls, rfl, hl, hls⟩ := hplain
    have htoken := token_of_plain hl
    refine .skip ?_ (ih hls)
    rwa [Lexeme.isSpace, htoken]
  | @frame head body rest b r ds fs notSpace isRun opens isBalanced closes inside others ih =>
    obtain ⟨head', b', body', r', rest', rfl, hhead, hopens, hbody, hcloses, hrest⟩ :=
      exists_of_plain_block hplain
    rw [← collapsed_of_plain hhead]
    rw [← map_token_of_plain hhead] at isRun
    rw [← map_token_of_plain hbody] at isBalanced
    refine .frame ?_ isRun (hopens.trans opens) isBalanced (hcloses.trans closes)
      (inside.of_plain hbody) (ih hrest)
    intro e he
    obtain ⟨head', rfl⟩ := List.head?_eq_some_iff.1 he
    rw [List.map_cons, eq_comm, List.map_eq_cons_iff] at hhead
    obtain ⟨x, _, rfl, hx, -⟩ := hhead
    have htoken := token_of_plain hx.symm
    rw [Lexeme.isSpace, htoken]
    exact notSpace x rfl

namespace Rule

theorem BlockReads.of_plain {head : AtHead} {rule : Rule} (h : BlockReads head ls rule)
    (hplain : ls'.map plain = ls.map plain) : BlockReads head ls' rule := by
  cases h with
  | keyframes isKeyframes inside => exact .keyframes isKeyframes (inside.of_plain hplain)
  | descriptors notKeyframes isDescriptor inside =>
    exact .descriptors notKeyframes isDescriptor (inside.of_plain hplain)
  | raw notKeyframes notDescriptors =>
    rw [← joined_of_plain hplain]
    exact .raw notKeyframes fun hname ds hreads =>
      notDescriptors hname ds (hreads.of_plain hplain.symm)

theorem Reads.of_plain {top : Bool} {rs : List Rule} (h : Reads top ls rs)
    (hplain : ls'.map plain = ls.map plain) : Reads top ls' rs := by
  induction h generalizing ls' with
  | nil =>
    rw [List.map_nil, List.map_eq_nil_iff] at hplain
    rw [hplain]
    exact .nil
  | @skip top l ls rs skipped rest ih =>
    rw [List.map_cons, List.map_eq_cons_iff] at hplain
    obtain ⟨l', ls, rfl, hl, hls⟩ := hplain
    have htoken := token_of_plain hl
    refine .skip ?_ (ih hls)
    rwa [isSkipped, Lexeme.isSpace, htoken]
  | @style top l b r head body rest selectors ds rs notSkipped notAt isRun hasSelectors opens
      isBalanced closes inside others ih =>
    rw [List.map_cons, List.map_eq_cons_iff] at hplain
    obtain ⟨l', _, rfl, hl, hplain⟩ := hplain
    obtain ⟨head', b', body', r', rest', rfl, hhead, hopens, hbody, hcloses, hrest⟩ :=
      exists_of_plain_block hplain
    have htoken := token_of_plain hl
    have hcons : (l' :: head').map plain = (l :: head).map plain := by
      rw [List.map_cons, List.map_cons, hl, hhead]
    rw [← htoken] at notAt
    rw [← map_token_of_plain hcons] at isRun
    rw [← selectors?_of_plain hcons] at hasSelectors
    rw [← map_token_of_plain hbody] at isBalanced
    refine .style ?_ notAt isRun hasSelectors (hopens.trans opens) isBalanced (hcloses.trans closes)
      (inside.of_plain hbody) (ih hrest)
    rwa [isSkipped, Lexeme.isSpace, htoken]
  | @last top l head name isAt isRun =>
    rw [List.map_cons, List.map_eq_cons_iff] at hplain
    obtain ⟨l', head', rfl, hl, hhead⟩ := hplain
    have htoken := token_of_plain hl
    rw [← atName_of_plain hl, ← collapsed_of_plain hhead]
    rw [← map_token_of_plain hhead] at isRun
    exact .last (htoken.trans isAt) isRun
  | @statement top l e head rest name rs isAt isRun ends others ih =>
    simp only [List.map_cons, List.map_append, List.map_eq_cons_iff,
      List.map_eq_append_iff] at hplain
    obtain ⟨l', _, rfl, hl, head', _, rfl, hhead, e', rest', rfl, he, hrest⟩ := hplain
    have htoken := token_of_plain hl
    have hends := token_of_plain he
    rw [← atName_of_plain hl, ← collapsed_of_plain hhead]
    rw [← map_token_of_plain hhead] at isRun
    exact .statement (htoken.trans isAt) isRun (hends.trans ends) (ih hrest)
  | @group top l b r head body rest name inner rs isAt isRun opens isBalanced closes isGroup inside
      others ihInside ih =>
    rw [List.map_cons, List.map_eq_cons_iff] at hplain
    obtain ⟨l', _, rfl, hl, hplain⟩ := hplain
    obtain ⟨head', b', body', r', rest', rfl, hhead, hopens, hbody, hcloses, hrest⟩ :=
      exists_of_plain_block hplain
    have htoken := token_of_plain hl
    rw [← atName_of_plain hl] at isGroup ⊢
    rw [← collapsed_of_plain hhead]
    rw [← map_token_of_plain hhead] at isRun
    rw [← map_token_of_plain hbody] at isBalanced
    exact .group (htoken.trans isAt) isRun (hopens.trans opens) isBalanced (hcloses.trans closes)
      isGroup (ihInside hbody) (ih hrest)
  | @block top l b r head body rest name rule rs isAt isRun opens isBalanced closes notGroup inside
      others ih =>
    rw [List.map_cons, List.map_eq_cons_iff] at hplain
    obtain ⟨l', _, rfl, hl, hplain⟩ := hplain
    obtain ⟨head', b', body', r', rest', rfl, hhead, hopens, hbody, hcloses, hrest⟩ :=
      exists_of_plain_block hplain
    have htoken := token_of_plain hl
    rw [← atName_of_plain hl] at notGroup inside
    rw [← collapsed_of_plain hhead] at inside
    rw [← map_token_of_plain hhead] at isRun
    rw [← map_token_of_plain hbody] at isBalanced
    exact .block (htoken.trans isAt) isRun (hopens.trans opens) isBalanced (hcloses.trans closes)
      notGroup (inside.of_plain hbody) (ih hrest)

end Rule

end Restyle.Css
