import WordMachines.Dfa.Valid
import WordMachines.Turing.Program

/-!
# From automata to programs

The compiled machine reads the word from left to right without changing it and keeps the
automaton's state as its own. On the first blank it halts, accepting if that state is accepting;
so it decides a word of length `n` in `n + 1` steps. States of the machine are known by text only:
if states of the automaton read alike, they become one, and the rules of the last of them hold.
-/

namespace WordMachines

namespace Dfa

variable {S A : Type} [DecidableEq S] [DecidableEq A] [Shown S] (d : Dfa S A)

def symbolRule? (q : S) (a : A) : Option (Program.Edit A) :=
  (d.next? q a).map fun t => .rule (.of q) (.symbol a) ⟨.symbol a, .right, .of t⟩

def blankRule (q : S) : Program.Edit A :=
  .rule (.of q) .blank ⟨.blank, .stay, if d.isAccepting q then .accept else .reject⟩

def declarations : List (Program.Edit A) :=
  d.states.map (.state ∘ .of) ++ [.state .accept, .state .reject] ++
    d.alphabet.map (.symbol ∘ .symbol) ++ [.symbol .blank]

def ruleEdits : List (Program.Edit A) :=
  d.states.flatMap fun q => d.alphabet.filterMap (d.symbolRule? q) ++ [d.blankRule q]

end Dfa

namespace ValidDfa

variable {S A : Type} [DecidableEq S] [DecidableEq A] [Shown S]

def compile (d : ValidDfa S A) : Program A :=
  (Program.new "compiled-dfa" (.of d.start)).edits (d.declarations ++ d.ruleEdits)

end ValidDfa

end WordMachines
