import Taxonomy.Demo.Zoo

/-!
# The demonstration as a program

Prints the lines of the demonstration.
-/

def main : IO Unit := do
  for line in Taxonomy.Demo.transcript do
    IO.println line
